import NorFlash.CommandLine.Options

namespace NorFlash

theorem Queue.operations_foldl_push (q : Queue) (ops : List Operation) :
    (ops.foldl Queue.push q).operations = q.operations ++ ops := by
  induction ops generalizing q with
  | nil => simp
  | cons op ops ih => simp [ih, Queue.push]

namespace CommandLine

variable {g : Nat × Given} {gs : List (Nat × Given)}

namespace Given

/-- The value, if the option is this one. -/
def value? (x : Field) : Given → Option String
  | .field y v => if y = x then some v else none
  | .switch _ => none

/-- What is asked for, if the option is one for a file. -/
def operation? : Given → Option Operation
  | .field .read v => some (.read v)
  | .field .write v => some (.write v)
  | .field .verify v => some (.verify v)
  | _ => none

end Given

/-- The values of one option with their places. -/
def valuesOf (x : Field) (gs : List (Nat × Given)) : List (Nat × String) :=
  gs.filterMap fun g => (g.2.value? x).map (g.1, ·)

/-- What is asked for at its places, in the order of the command line. -/
def asked (gs : List (Nat × Given)) : List (Nat × Operation) :=
  gs.filterMap fun g => g.2.operation?.map (g.1, ·)

/-- An option with more of its values. -/
def Occurrences.more (x : Occurrences) (found : List (Nat × String)) : Occurrences :=
  ⟨x.places ++ found.map (·.1), x.values ++ found.map (·.2), by simp [x.length_eq]⟩

/-- Each of the options with those of its values that are on the command line. -/
def FileOptions.more (x : FileOptions) (gs : List (Nat × Given)) : FileOptions :=
  ⟨x.read.more (valuesOf .read gs), x.write.more (valuesOf .write gs),
    x.verify.more (valuesOf .verify gs)⟩

/-- What the options are given on a command line. -/
def FileOptions.collect (gs : List (Nat × Given)) : FileOptions := more {} gs

theorem Occurrences.more_nil (x : Occurrences) : x.more [] = x := by
  simp [more]

theorem Occurrences.add_more (x : Occurrences) (place : Nat) (value : String)
    (found : List (Nat × String)) :
    (x.add place value).more found = x.more ((place, value) :: found) := by
  simp [add, more]

theorem Occurrences.operations_more (x : Occurrences) (found : List (Nat × String))
    (op : String → Operation) :
    (x.more found).operations op = x.operations op ++ found.map fun f => (f.1, op f.2) := by
  unfold operations more
  rw [List.map_append, List.zip_append (by rw [List.length_map, x.length_eq]), List.map_map,
    List.zip_map']
  rfl

theorem FileOptions.more_nil (x : FileOptions) : x.more [] = x := by
  simp [more, valuesOf, Occurrences.more_nil]

/-- An option that is accepted stands before the ones behind it. -/
theorem Options.more_add {o o' : Options} (h : o.add g.1 g.2 = some o') :
    o'.files.more gs = o.files.more (g :: gs) := by
  obtain ⟨place, g⟩ := g
  cases g with
  | switch x =>
    cases x with
    | verbose =>
      cases h
      rfl
    | list =>
      simp only [add] at h
      split at h
      · cases h
      · cases h
        rfl
  | field x v =>
    cases x <;>
      simp only [add, Option.bind_eq_bind, Option.pure_def, Option.bind_eq_some_iff] at h
    case vendorFiles =>
      obtain ⟨path, _, files, _, ho⟩ := h
      cases ho
      rfl
    case read | write | verify =>
      obtain ⟨path, hpath, ho⟩ := h
      cases ho
      unfold Options.path at hpath
      split at hpath
      · cases hpath
      · cases hpath
        simp [FileOptions.more, valuesOf, Given.value?, Occurrences.add_more]
    all_goals
      obtain ⟨value, _, ho⟩ := h
      cases ho
      rfl

theorem Options.files_of_foldlM {o o' : Options}
    (h : gs.foldlM (fun o g => o.add g.1 g.2) o = some o') : o'.files = o.files.more gs := by
  induction gs generalizing o with
  | nil =>
    cases h
    exact (FileOptions.more_nil _).symm
  | cons g gs ih =>
    rw [List.foldlM_cons] at h
    obtain ⟨o₁, hadd, hrest⟩ := Option.bind_eq_some_iff.mp h
    rw [ih hrest]
    exact more_add hadd

/-- The options hold what is asked for, though not in its order. -/
theorem FileOptions.found_collect (gs : List (Nat × Given)) :
    (collect gs).found.Perm (asked gs) := by
  have hfound : (collect gs).found =
      (valuesOf .read gs).map (fun f => (f.1, .read f.2)) ++
        (valuesOf .write gs).map (fun f => (f.1, .write f.2)) ++
          (valuesOf .verify gs).map (fun f => (f.1, .verify f.2)) := by
    simp only [collect, found, more, Occurrences.operations_more]
    rfl
  rw [hfound]
  clear hfound
  induction gs with
  | nil => exact .refl _
  | cons g gs ih =>
    obtain ⟨place, g⟩ := g
    cases g with
    | switch x => exact ih
    | field x v =>
      cases x
      case read => exact ih.cons _
      case write =>
        refine List.Perm.trans ?_ (ih.cons _)
        rw [List.append_assoc, List.append_assoc]
        exact List.perm_middle
      case verify =>
        refine List.Perm.trans ?_ (ih.cons _)
        exact List.perm_middle
      all_goals exact ih

theorem pairwise_asked (h : (gs.map Prod.fst).Pairwise (· < ·)) :
    (asked gs).Pairwise fun a b => a.1 < b.1 := by
  refine (List.pairwise_map.mp h).filterMap _ fun g g' hlt a ha b hb => ?_
  obtain ⟨_, _, rfl⟩ := Option.map_eq_some_iff.mp ha
  obtain ⟨_, _, rfl⟩ := Option.map_eq_some_iff.mp hb
  exact hlt

/-- Where places increase along the command line, the options come back in its order. -/
theorem FileOptions.operations_collect (h : (gs.map Prod.fst).Pairwise (· < ·)) :
    (collect gs).operations = gs.filterMap fun g => g.2.operation? := by
  have hasked := pairwise_asked h
  have hperm := (List.mergeSort_perm (collect gs).found fun a b => a.1 ≤ b.1).trans
    (found_collect gs)
  have hdistinct := (hperm.pairwise_iff fun hne => Ne.symm hne).mpr (hasked.imp Nat.ne_of_lt)
  have htrans : ∀ a b c : Nat × Operation, decide (a.1 ≤ b.1) → decide (b.1 ≤ c.1) →
      decide (a.1 ≤ c.1) := by
    simp only [decide_eq_true_eq]
    omega
  have htotal : ∀ a b : Nat × Operation, (decide (a.1 ≤ b.1) || decide (b.1 ≤ a.1)) = true := by
    simp only [Bool.or_eq_true, decide_eq_true_eq]
    omega
  have hsorted := List.pairwise_mergeSort htrans htotal (collect gs).found
  have hsort : (collect gs).found.mergeSort (fun a b => a.1 ≤ b.1) = asked gs := by
    refine hperm.eq_of_pairwise ?_ ((hsorted.and hdistinct).imp ?_) hasked
    · intro a b _ _ hab hba
      exact absurd hab (Nat.lt_asymm hba)
    · rintro a b ⟨hle, hne⟩
      exact Nat.lt_of_le_of_ne (of_decide_eq_true hle) hne
  rw [operations, hsort, asked, List.map_filterMap]
  simp only [Option.map_map, Function.comp_def, Option.map_id']

namespace Options

variable {o : Options}

theorem files_of_ofPlaced? (h : ofPlaced? gs = some o) : o.files = FileOptions.collect gs :=
  files_of_foldlM h

theorem pairwise_placed (xs : List Given) : ((placed xs).map Prod.fst).Pairwise (· < ·) := by
  rw [placed, List.map_fst_zip (by simp)]
  exact List.pairwise_lt_range

theorem operations_of_ofArgs? {args : List String} {xs : List Given} (hxs : given? args = some xs)
    (h : ofArgs? args = some o) : o.files.operations = xs.filterMap Given.operation? := by
  simp only [ofArgs?, hxs, Option.bind_eq_bind, Option.bind_some] at h
  rw [files_of_ofPlaced? h, FileOptions.operations_collect (pairwise_placed xs)]
  have hsnd : (placed xs).map Prod.snd = xs := by
    rw [placed, List.map_snd_zip (by simp)]
  calc (placed xs).filterMap (fun g => g.2.operation?)
      = ((placed xs).map Prod.snd).filterMap Given.operation? := by
        rw [List.filterMap_map]
        rfl
    _ = xs.filterMap Given.operation? := by rw [hsnd]

/-- A queue holds the selections first. -/
theorem operations_queue (o : Options) (x : Strategy) : (o.queue x).operations =
    .setProgrammer o.programmerArgs :: .setChip o.chipName :: .setStrategy x ::
      o.files.operations :=
  Queue.operations_foldl_push _ _

/-- What the words of a command line ask for is queued in their order. -/
theorem queue_of_ofArgs? {args : List String} {xs : List Given} (hxs : given? args = some xs)
    (h : ofArgs? args = some o) (x : Strategy) : (o.queue x).operations =
      .setProgrammer o.programmerArgs :: .setChip o.chipName :: .setStrategy x ::
        xs.filterMap Given.operation? := by
  rw [operations_queue, operations_of_ofArgs? hxs h]

end Options
end CommandLine
end NorFlash
