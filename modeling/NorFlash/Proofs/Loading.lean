import NorFlash.Database.Directory
import NorFlash.Proofs.Accepted

namespace NorFlash
namespace VendorFile

/-- Some accepted chip is what the definition says. -/
def ChipDefinition.Acceptable (vendor : String) (manufacturer : Nat) (d : ChipDefinition) : Prop :=
  ∃ c, d.Describes vendor manufacturer c ∧ c.Accepted

/-- What a text comes to: its chips, or the first of them that cannot be accepted. -/
inductive Reads (parse : Parser) (text : String) : Except DatabaseError (List Chip) → Prop where
  | chips {cs : List Chip} (defines : Defines parse text cs) : Reads parse text (.ok cs)
  | parse (unread : parse text = none) : Reads parse text (.error .parse)
  | invalid {v : VendorDefinition} {before after : List ChipDefinition} {d : ChipDefinition}
      (read : parse text = some v) (place : v.chips = before ++ d :: after)
      (good : ∀ x ∈ before, x.Acceptable v.vendor v.manufacturerId)
      (bad : ¬d.Acceptable v.vendor v.manufacturerId) (reason : String) :
      Reads parse text (.error (.invalid d.id reason))

variable {parse : Parser} {text : String} {cs : List Chip}

theorem Reads.accepted (h : Reads parse text (.ok cs)) : ∀ c ∈ cs, c.Accepted := by
  cases h with
  | chips defines => exact defines.accepted

/-- The first element that stops the conversion of a list. -/
theorem exists_of_mapM_error {α β ε : Type} {f : α → Except ε β} {xs : List α} {e : ε}
    (h : xs.mapM f = .error e) : ∃ before x after, xs = before ++ x :: after ∧
      (∀ y ∈ before, ∃ z, f y = .ok z) ∧ f x = .error e := by
  induction xs with
  | nil => simp [pure, Except.pure] at h
  | cons x xs ih =>
    rw [List.mapM_cons] at h
    cases hx : f x with
    | error e' =>
      simp only [hx, bind, Except.bind, Except.error.injEq] at h
      subst h
      exact ⟨[], x, xs, rfl, by simp, hx⟩
    | ok z =>
      cases hxs : xs.mapM f with
      | ok zs => simp [hx, hxs, bind, Except.bind, pure, Except.pure] at h
      | error e' =>
        simp only [hx, hxs, bind, Except.bind, Except.error.injEq] at h
        subst h
        obtain ⟨before, y, after, he, hok, herr⟩ := ih hxs
        refine ⟨x :: before, y, after, by rw [he, List.cons_append], ?_, herr⟩
        simp only [List.forall_mem_cons]
        exact ⟨⟨z, hx⟩, hok⟩

theorem acceptable_iff {vendor : String} {manufacturer : Nat} {d : ChipDefinition} :
    d.Acceptable vendor manufacturer ↔ ∃ c, d.toChip vendor manufacturer = .ok c := by
  simp only [toChip_eq_ok_iff, ChipDefinition.Acceptable]

theorem toChip_error {vendor : String} {manufacturer : Nat} {d : ChipDefinition}
    {e : DatabaseError} (h : d.toChip vendor manufacturer = .error e) :
    ∃ reason, e = .invalid d.id reason := by
  unfold ChipDefinition.toChip at h
  split at h
  case h_1 =>
    cases h
    exact ⟨_, rfl⟩
  case h_2 =>
    split at h
    case h_1 reason _ =>
      cases h
      exact ⟨reason, rfl⟩
    case h_2 => simp at h

theorem reads_chips (parse : Parser) (text : String) : Reads parse text (chips parse text) := by
  cases h : chips parse text with
  | ok cs => exact .chips (chips_eq_ok_iff.mp h)
  | error e =>
    unfold chips at h
    cases hv : parse text with
    | none =>
      simp only [hv, Except.error.injEq] at h
      subst h
      exact .parse hv
    | some v =>
      simp only [hv] at h
      obtain ⟨before, d, after, hplace, hgood, hbad⟩ := exists_of_mapM_error h
      obtain ⟨reason, rfl⟩ := toChip_error hbad
      apply Reads.invalid hv hplace
      · intro x hx
        exact acceptable_iff.mpr (hgood x hx)
      · intro hd
        obtain ⟨c, hc⟩ := acceptable_iff.mp hd
        simp [hbad] at hc

end VendorFile

variable {parse : VendorFile.Parser}

/-- What a file comes to. -/
inductive Files.Holds (parse : VendorFile.Parser) (fs : Files) (path : String) :
    Except DatabaseError (List Chip) → Prop where
  | unread {e : OsError} (read : fs.readText path = .error e) : Holds parse fs path (.error (.io e))
  | text {s : String} {r : Except DatabaseError (List Chip)} (read : fs.readText path = .ok s)
      (reads : VendorFile.Reads parse s r) : Holds parse fs path r

theorem Files.Holds.accepted {fs : Files} {path : String} {cs : List Chip}
    (h : fs.Holds parse path (.ok cs)) : ∀ c ∈ cs, c.Accepted := by
  cases h with
  | text _ reads => exact reads.accepted

namespace Database

/-- The vendor files among some names, each as often as it is there. -/
structure InOrder (names files : List String) : Prop where
  perm : files.Perm (names.filter fun n => extension? n == some "ron")
  sorted : files.Pairwise (· ≤ ·)

theorem vendorFiles_inOrder (names : List String) : InOrder names (vendorFiles names) := by
  constructor
  · exact List.mergeSort_perm _ _
  · have hle (a b : String) : (!decide (b < a)) = true ↔ a ≤ b := by
      simp only [Bool.not_eq_true', decide_eq_false_iff_not, String.not_lt]
    have htrans : ∀ a b c : String, (!decide (b < a)) = true → (!decide (c < b)) = true →
        (!decide (c < a)) = true := by
      simp only [hle]
      intro a b c
      exact String.le_trans
    have htotal : ∀ a b : String, ((!decide (b < a)) || !decide (a < b)) = true := by
      simp only [Bool.or_eq_true, hle]
      exact String.le_total
    have hsort := List.pairwise_mergeSort htrans htotal
      (names.filter fun n => extension? n == some "ron")
    simp only [hle] at hsort
    exact hsort

/-- A call that loads chips, with the files that it finds. -/
inductive Load where
  | text (s : String)
  | file (fs : Files) (path : String)
  | directory (fs : Files) (path : String)

/-- The database after a call that gives a new one only if it ends well. -/
def settled (d : Database) : Except DatabaseError (Nat × Database) →
    Except DatabaseError Nat × Database
  | .ok (n, d') => (.ok n, d')
  | .error e => (.error e, d)

def Load.perform (parse : VendorFile.Parser) : Load → Act Database DatabaseError Nat
  | .text s => fun d => d.settled (d.load parse s)
  | .file fs path => fun d => d.settled (d.loadFile parse fs path)
  | .directory fs path => fun d => d.loadDirectory parse fs path

/-- The database after some calls, of which the first finds it empty. -/
def after (parse : VendorFile.Parser) (calls : List Load) : Database :=
  calls.foldl (fun d l => (l.perform parse d).2) {}

/-- The chips that a call brings, in their order, and how it ends. -/
inductive Load.Brings (parse : VendorFile.Parser) :
    Load → List Chip → Except DatabaseError Nat → Prop where
  | text {s : String} {cs : List Chip} (reads : VendorFile.Reads parse s (.ok cs)) :
      Brings parse (.text s) cs (.ok cs.length)
  | badText {s : String} {e : DatabaseError} (reads : VendorFile.Reads parse s (.error e)) :
      Brings parse (.text s) [] (.error e)
  | file {fs : Files} {path : String} {cs : List Chip} (holds : fs.Holds parse path (.ok cs)) :
      Brings parse (.file fs path) cs (.ok cs.length)
  | badFile {fs : Files} {path : String} {e : DatabaseError}
      (holds : fs.Holds parse path (.error e)) :
      Brings parse (.file fs path) [] (.error e)
  | unlisted {fs : Files} {path : String} {e : OsError} (list : fs.list path = .error e) :
      Brings parse (.directory fs path) [] (.error (.io e))
  | directory {fs : Files} {path : String} {names files : List String} {css : List (List Chip)}
      (list : fs.list path = .ok names) (order : InOrder names files)
      (holds : List.Forall₂ (fun n cs => fs.Holds parse (Files.inside path n) (.ok cs)) files css) :
      Brings parse (.directory fs path) css.flatten (.ok css.flatten.length)
  | upTo {fs : Files} {path name : String} {names before rest : List String}
      {css : List (List Chip)} {e : DatabaseError} (list : fs.list path = .ok names)
      (order : InOrder names (before ++ name :: rest))
      (holds : List.Forall₂ (fun n cs => fs.Holds parse (Files.inside path n) (.ok cs)) before css)
      (bad : fs.Holds parse (Files.inside path name) (.error e)) :
      Brings parse (.directory fs path) css.flatten (.error e)

/-- A database that has only accepted chips, and what any call does to it. -/
structure Sound (parse : VendorFile.Parser) (d : Database) : Prop where
  accepted : ∀ c ∈ d.chips, c.Accepted
  load : ∀ text n d', d.load parse text = .ok (n, d') ↔
    ∃ cs, VendorFile.Defines parse text cs ∧ n = cs.length ∧ d' = ⟨d.chips ++ cs⟩
  call : ∀ l : Load, ∃ cs r, l.Brings parse cs r ∧ l.perform parse d = (r, ⟨d.chips ++ cs⟩)

/-- A database with more chips behind the others, and their number. -/
def extended (d : Database) (cs : List Chip) : Nat × Database := (cs.length, ⟨d.chips ++ cs⟩)

theorem load_eq (parse : VendorFile.Parser) (d : Database) (text : String) :
    d.load parse text = (VendorFile.chips parse text).map d.extended := by
  unfold load
  cases VendorFile.chips parse text <;> rfl

theorem load_eq_ok_iff {d d' : Database} {text : String} {n : Nat} :
    d.load parse text = .ok (n, d') ↔
      ∃ cs, VendorFile.Defines parse text cs ∧ n = cs.length ∧ d' = ⟨d.chips ++ cs⟩ := by
  rw [load_eq]
  cases h : VendorFile.chips parse text with
  | error e =>
    simp only [← VendorFile.chips_eq_ok_iff, h, Except.map]
    simp
  | ok cs =>
    simp only [← VendorFile.chips_eq_ok_iff, h, Except.map, extended, Except.ok.injEq,
      Prod.mk.injEq, exists_eq_left']
    exact and_congr eq_comm eq_comm

theorem loadFile_eq (parse : VendorFile.Parser) (fs : Files) (path : String) :
    ∃ r, fs.Holds parse path r ∧ ∀ d : Database, d.loadFile parse fs path = r.map d.extended := by
  unfold loadFile
  cases h : fs.readText path with
  | error e => exact ⟨_, .unread h, fun d => rfl⟩
  | ok text => exact ⟨_, .text h (VendorFile.reads_chips parse text), fun d => load_eq parse d text⟩

/-- How far loading files from a directory comes. -/
theorem loadFiles_walks (parse : VendorFile.Parser) (fs : Files) (paths : List String) (n : Nat)
    (d : Database) :
    (∃ css, List.Forall₂ (fun p cs => fs.Holds parse p (.ok cs)) paths css ∧
      loadFiles parse fs paths n d = (.ok (n + css.flatten.length), ⟨d.chips ++ css.flatten⟩)) ∨
    ∃ before path rest css e, paths = before ++ path :: rest ∧
      List.Forall₂ (fun p cs => fs.Holds parse p (.ok cs)) before css ∧
      fs.Holds parse path (.error e) ∧
      loadFiles parse fs paths n d = (.error e, ⟨d.chips ++ css.flatten⟩) := by
  induction paths generalizing n d with
  | nil =>
    left
    exact ⟨[], .nil, by simp [loadFiles]⟩
  | cons path paths ih =>
    obtain ⟨r, hr, hload⟩ := loadFile_eq parse fs path
    cases r with
    | error e =>
      right
      refine ⟨[], path, paths, [], e, rfl, .nil, hr, ?_⟩
      simp [loadFiles, hload, Except.map]
    | ok cs =>
      have hnext : loadFiles parse fs (path :: paths) n d =
          loadFiles parse fs paths (n + cs.length) ⟨d.chips ++ cs⟩ := by
        simp [loadFiles, hload, Except.map, extended]
      rw [hnext]
      rcases ih (n + cs.length) ⟨d.chips ++ cs⟩ with
        ⟨css, hcss, he⟩ | ⟨before, bad, rest, css, e, hplace, hcss, hbad, he⟩
      · left
        refine ⟨cs :: css, .cons hr hcss, ?_⟩
        rw [he, List.flatten_cons, List.length_append, Nat.add_assoc, List.append_assoc]
      · right
        refine ⟨path :: before, bad, rest, cs :: css, e, ?_, .cons hr hcss, hbad, ?_⟩
        · rw [hplace, List.cons_append]
        · rw [he, List.flatten_cons, List.append_assoc]

theorem settled_map (d : Database) (r : Except DatabaseError (List Chip)) :
    d.settled (r.map d.extended) = match r with
      | .ok cs => (.ok cs.length, ⟨d.chips ++ cs⟩)
      | .error e => (.error e, d) := by
  cases r <;> rfl

theorem Load.brings (parse : VendorFile.Parser) (l : Load) (d : Database) :
    ∃ cs r, l.Brings parse cs r ∧ l.perform parse d = (r, ⟨d.chips ++ cs⟩) := by
  cases l with
  | text s =>
    have hr := VendorFile.reads_chips parse s
    simp only [perform, load_eq, settled_map]
    cases h : VendorFile.chips parse s with
    | ok cs => exact ⟨cs, _, .text (h ▸ hr), rfl⟩
    | error e => exact ⟨[], _, .badText (h ▸ hr), by simp⟩
  | file fs path =>
    obtain ⟨r, hr, hload⟩ := loadFile_eq parse fs path
    simp only [perform, hload, settled_map]
    cases r with
    | ok cs => exact ⟨cs, _, .file hr, rfl⟩
    | error e => exact ⟨[], _, .badFile hr, by simp⟩
  | directory fs path =>
    simp only [perform, loadDirectory]
    cases hlist : fs.list path with
    | error e => exact ⟨[], _, .unlisted hlist, by simp⟩
    | ok names =>
      have horder := vendorFiles_inOrder names
      rcases loadFiles_walks parse fs ((vendorFiles names).map (Files.inside path)) 0 d with
        ⟨css, hcss, he⟩ | ⟨before, bad, rest, css, e, hplace, hcss, hbad, he⟩
      · rw [List.forall₂_map_left_iff] at hcss
        refine ⟨css.flatten, _, .directory hlist horder hcss, ?_⟩
        simpa using he
      · obtain ⟨files, tail, hfiles, hbefore, htail⟩ := List.map_eq_append_iff.mp hplace
        obtain ⟨name, others, htailEq, hname, -⟩ := List.map_eq_cons_iff.mp htail
        subst hbefore htailEq hname
        rw [List.forall₂_map_left_iff] at hcss
        exact ⟨css.flatten, _, .upTo hlist (hfiles ▸ horder) hcss hbad, he⟩

theorem accepted_of_holds {fs : Files} {path : String} {names : List String}
    {css : List (List Chip)}
    (h : List.Forall₂ (fun n cs => fs.Holds parse (Files.inside path n) (.ok cs)) names css) :
    ∀ c ∈ css.flatten, c.Accepted := by
  induction h with
  | nil => simp
  | cons hcs _ ih =>
    intro c hc
    rw [List.flatten_cons, List.mem_append] at hc
    exact hc.elim (hcs.accepted c) (ih c)

theorem Load.Brings.accepted {l : Load} {cs : List Chip} {r : Except DatabaseError Nat}
    (h : l.Brings parse cs r) : ∀ c ∈ cs, c.Accepted := by
  cases h with
  | text reads => exact reads.accepted
  | file holds => exact holds.accepted
  | directory _ _ holds => exact accepted_of_holds holds
  | upTo _ _ holds _ => exact accepted_of_holds holds
  | badText => simp
  | badFile => simp
  | unlisted => simp

theorem perform_accepted (parse : VendorFile.Parser) {d : Database}
    (h : ∀ c ∈ d.chips, c.Accepted) (l : Load) :
    ∀ c ∈ (l.perform parse d).2.chips, c.Accepted := by
  obtain ⟨cs, r, hbrings, he⟩ := l.brings parse d
  intro c hc
  simp only [he, List.mem_append] at hc
  exact hc.elim (h c) (hbrings.accepted c)

/-- The invariant of a run of calls: whatever a call finds, it adds only accepted chips. -/
theorem after_accepted (parse : VendorFile.Parser) (calls : List Load) :
    ∀ c ∈ (after parse calls).chips, c.Accepted := by
  unfold after
  apply List.foldlRecOn calls (motive := fun d : Database => ∀ c ∈ d.chips, c.Accepted)
  · simp
  · intro d hd l _
    exact perform_accepted parse hd l

/-- However texts are read, a database holds only accepted chips after any calls, and the next call
adds the chips of the files that it takes, each of them whole, and otherwise leaves the database as
it was. -/
theorem takes_whole_files (parse : VendorFile.Parser) (calls : List Load) :
    (after parse calls).Sound parse :=
  ⟨after_accepted parse calls, fun _ _ _ => load_eq_ok_iff, fun l => l.brings parse _⟩

/-- A bad chip at the end of a file keeps the good one before it out. -/
example (d : Database) :
    let good := Chip.at25fs010.definition
    let bad := { good with totalSize := .bytes 0 }
    (Load.text "").perform (fun _ => some ⟨"", 0, [good, bad]⟩) d =
      (.error (.invalid good.id "total_size must be between 1 byte and 4 GiB"), d) := by
  cbv

end Database
end NorFlash
