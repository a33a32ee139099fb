import NorFlash.Proofs.Covering
import NorFlash.Proofs.Parallel
import NorFlash.Proofs.Writing

namespace NorFlash

/-- From `a` up to `b`, by steps that rise. -/
inductive Climbs {α : Type} (rises : α → α → Prop) : α → List α → α → Prop where
  | here (a : α) : Climbs rises a [] a
  | step {a b c : α} {xs : List α} (h : rises a b) (hs : Climbs rises b xs c) :
      Climbs rises a (b :: xs) c

def Progress.isReading : Progress → Bool
  | .reading _ | .read _ => true
  | _ => false

def Progress.isComplete : Progress → Bool
  | .complete _ => true
  | _ => false

namespace Programmer

def Erased.report (done : Erased) : Progress := .erased done.blocks done.bytes

def Erased.next (done : Erased) (b : Block) : Erased := ⟨done.blocks + 1, done.bytes + b.size⟩

/-- Both counters have risen. -/
def Erased.Before (a b : Erased) : Prop := a.blocks < b.blocks ∧ a.bytes < b.bytes

/-- The programmer with a record of its reports, the latest last. -/
def reported {σ : Type} (p : Programmer σ) : Programmer (σ × List Progress) where
  maxRead s := p.maxRead s.1
  maxWrite s := p.maxWrite s.1
  execute c s :=
    match p.execute c s.1 with
    | (r, s') => (r, (s', s.2))
  delay n s := (p.delay n s.1, s.2)
  report e s := (p.report e s.1, s.2 ++ [e])
  note n s := (p.note n s.1, s.2)
  patience := p.patience

end Programmer

/-- The reports of a write before its last: first what it reads, then what it erases, announced and
counted up to the announcement, then in the same way what it programs. -/
def WriteStats.ToldBy (stats : WriteStats) (told : List Progress) : Prop :=
  ∃ (reads : List Progress) (erased : List Programmer.Erased) (written : List Nat),
    told = reads ++ .erasing stats.erases stats.erased :: erased.map Programmer.Erased.report ++
      .writing stats.written :: written.map .written ∧
    (∀ e ∈ reads, e.isReading) ∧
    Climbs Programmer.Erased.Before {} erased ⟨stats.erases, stats.erased⟩ ∧
    Climbs (· < ·) 0 written stats.written

variable {σ α β γ τ : Type} {p : Programmer σ} {c : Chip} {data : Bytes} {start : Nat}

theorem Programmer.reported_parallel (p : Programmer σ) :
    p.reported.Parallel (fun s t => s.1 = t) p where
  execute c := by
    rintro s _ rfl
    exact ⟨rfl, rfl⟩
  delay n := by
    rintro s _ rfl
    rfl
  report e := by
    rintro s _ rfl
    rfl
  note n := by
    rintro s _ rfl
    rfl
  maxRead := by
    rintro s _ rfl
    rfl
  maxWrite := by
    rintro s _ rfl
    rfl
  patience := rfl

/-- A quiet programmer reports nothing. -/
theorem Programmer.reported_quiet (p : Programmer σ) (log : List Progress) :
    p.reported.quiet.Parallel (Beside log) p.quiet where
  execute c := by
    rintro _ s rfl
    exact ⟨rfl, rfl⟩
  delay n := by
    rintro _ s rfl
    rfl
  report e := by
    rintro _ s rfl
    rfl
  note n := by
    rintro _ s rfl
    rfl
  maxRead := by
    rintro _ s rfl
    rfl
  maxWrite := by
    rintro _ s rfl
    rfl
  patience := rfl

/-- No completion is reported. Where the step ends well, `say` holds of its value and the
reports. -/
def Tells (x : Act (σ × List Progress) Stop α) (say : α → List Progress → Prop) : Prop :=
  x.Adds fun told r => (∀ e ∈ told, e.isComplete = false) ∧ ∀ a, r = .ok a → say a told

/-- Nothing is reported, and `q` holds of the value. -/
abbrev Mute (x : Act (σ × List Progress) Stop α) (q : α → Prop) : Prop :=
  Tells x fun a told => told = [] ∧ q a

namespace Tells

variable {x : Act (σ × List Progress) Stop α} {f : α → Act (σ × List Progress) Stop β}
  {say : α → List Progress → Prop} {tale : β → List Progress → Prop} {q : α → Prop}

theorem mono {tale : α → List Progress → Prop} (hx : Tells x say)
    (h : ∀ a told, say a told → tale a told) : Tells x tale :=
  Act.Adds.mono hx fun _ _ hpost => ⟨hpost.1, fun a ha => h a _ (hpost.2 a ha)⟩

theorem bind (hx : Tells x say)
    (hf : ∀ a told, say a told → Tells (f a) fun b more => tale b (told ++ more)) :
    Tells (x >>= f) tale := by
  refine Act.Adds.bind hx ?_ ?_
  · intro told a hfirst
    refine Act.Adds.mono (hf a told (hfirst.2 a rfl)) fun more r hrest => ⟨?_, hrest.2⟩
    intro e he
    rcases List.mem_append.mp he with he | he
    · exact hfirst.1 e he
    · exact hrest.1 e he
  · intro told e hfirst
    exact ⟨hfirst.1, nofun⟩

theorem leads {post : List Progress → Except Stop β → Prop} (hx : Mute x q)
    (hf : ∀ a, q a → (f a).Adds post)
    (he : ∀ told e, (∀ x ∈ told, x.isComplete = false) → post told (.error e)) :
    (x >>= f).Adds post := by
  refine Act.Adds.bind hx ?_ fun told e htold => he told e htold.1
  rintro told a ⟨_, hmute⟩
  obtain ⟨rfl, hq⟩ := hmute a rfl
  exact hf a hq

/-- What comes after a step that reports nothing. -/
theorem after (hx : Mute x q) (hf : ∀ a, q a → Tells (f a) tale) : Tells (x >>= f) tale :=
  leads hx hf fun _ _ htold => ⟨htold, nofun⟩

theorem silent (h : ∀ s, (x s).2.2 = s.2 ∧ ∀ a, (x s).1 = .ok a → q a) : Mute x q := by
  refine (Act.Adds.silent (q := fun r => ∀ a, r = .ok a → q a) h).mono ?_
  rintro _ r ⟨rfl, hq⟩
  exact ⟨by simp, fun a ha => ⟨rfl, hq a ha⟩⟩

theorem of_mirrors {y : Act σ Stop α} (h : ∀ log, Act.Mirrors (Beside log) x y) :
    Mute x fun _ => True := by
  refine (Act.Adds.of_mirrors h).mono ?_
  rintro _ r rfl
  exact ⟨by simp, fun a _ => ⟨rfl, trivial⟩⟩

theorem pure {a : α} (h : say a []) : Tells (σ := σ) (Pure.pure a) say := by
  refine fun s log => ⟨[], (List.append_nil log).symm, by simp, fun b hb => ?_⟩
  cases hb
  exact h

theorem read {g : σ × List Progress → α} : Mute (Act.read g) fun _ => True :=
  silent fun _ => ⟨rfl, fun _ _ => trivial⟩

theorem lift {r : Except Error α} : Mute (σ := σ) (Stop.lift r) fun a => r = .ok a := by
  refine silent fun s => ⟨rfl, fun a ha => ?_⟩
  cases r with
  | error e => cases ha
  | ok b =>
    cases ha
    rfl

theorem require {o : Option α} : Mute (σ := σ) (Stop.require o) fun _ => True := by
  cases o with
  | none => exact silent fun _ => ⟨rfl, nofun⟩
  | some a => exact pure ⟨rfl, trivial⟩

theorem word {n bound : Nat} : Mute (σ := σ) (Stop.word n bound) fun a => a = n := by
  unfold Stop.word
  split
  · exact pure ⟨rfl, rfl⟩
  · exact silent fun _ => ⟨rfl, nofun⟩

theorem tell (p : Programmer σ) (n : Notice) : Mute (p.reported.tell n) fun _ => True :=
  of_mirrors fun log => (p.reported_quiet log).tell n

theorem progress (p : Programmer σ) {e : Progress} (he : e.isComplete = false) :
    Tells (p.reported.progress e) fun _ told => told = [e] := by
  refine fun s log => ⟨[e], rfl, ?_, fun _ _ => rfl⟩
  simp [he]

theorem onError (p : Programmer σ) {g : Error → Notice} (hx : Tells x say) :
    Tells (p.reported.onError x g) say :=
  Act.Adds.onError (fun _ _ => rfl) hx

/-- Steps of which each reports only what `P` allows. -/
theorem fold_all {P : Progress → Prop} {f : β → γ → Act (σ × List Progress) Stop β}
    (h : ∀ b x, Tells (f b x) fun _ told => ∀ e ∈ told, P e) (b : β) (xs : List γ) :
    Tells (Act.fold f b xs) fun _ told => ∀ e ∈ told, P e := by
  induction xs generalizing b with
  | nil => exact pure (by simp)
  | cons x xs ih =>
    rw [Act.fold_cons]
    refine bind (h b x) fun b' told hfirst => (ih b').mono fun _ more hrest e he => ?_
    rcases List.mem_append.mp he with he | he
    · exact hfirst e he
    · exact hrest e he

/-- Steps that report nothing. `inv` says what has become of the value when some first part of the
list is done. -/
theorem fold_mute {f : β → γ → Act (σ × List Progress) Stop β} (inv : List γ → β → Prop)
    (h : ∀ pre x b, inv pre b → Mute (f b x) (inv (pre ++ [x]))) {b : β} (h₀ : inv [] b)
    (xs : List γ) : Mute (Act.fold f b xs) (inv xs) := by
  suffices hrest : ∀ post pre b, inv pre b → Mute (Act.fold f b post) (inv (pre ++ post)) from
    hrest xs [] b h₀
  intro post
  induction post with
  | nil =>
    intro pre b hinv
    rw [List.append_nil]
    exact pure ⟨rfl, hinv⟩
  | cons x post ih =>
    intro pre b hinv
    rw [Act.fold_cons, List.append_cons]
    exact after (h pre x b hinv) fun b' hinv' => ih (pre ++ [x]) b' hinv'

/-- Steps of which each brings a counter up and reports where it stands. -/
theorem fold_counts {f : β → γ → Act (σ × List Progress) Stop β} {xs : List γ} {b : β}
    (counter : β → τ) (next : τ → γ → τ) (report : τ → Progress) (rises : τ → τ → Prop)
    (hnext : ∀ n, ∀ x ∈ xs, rises n (next n x))
    (h : ∀ b, ∀ x ∈ xs, Tells (f b x) fun b' told =>
      counter b' = next (counter b) x ∧ told = [report (counter b')]) :
    Tells (Act.fold f b xs) fun b' told => counter b' = xs.foldl next (counter b) ∧
      ∃ ns, told = ns.map report ∧ Climbs rises (counter b) ns (counter b') := by
  induction xs generalizing b with
  | nil => exact pure ⟨rfl, [], rfl, .here _⟩
  | cons x xs ih =>
    rw [Act.fold_cons]
    refine bind (h b x List.mem_cons_self) ?_
    rintro b' _ ⟨hb', rfl⟩
    have hrise := hnext (counter b) x List.mem_cons_self
    rw [← hb'] at hrise
    refine (ih (fun n y hy => hnext n y (List.mem_cons_of_mem x hy))
      fun b y hy => h b y (List.mem_cons_of_mem x hy)).mono ?_
    rintro b'' _ ⟨hcount, ns, rfl, hclimbs⟩
    exact ⟨by rw [hcount, hb', List.foldl_cons], counter b' :: ns, rfl, .step hrise hclimbs⟩

end Tells

namespace Programmer

variable (p : Programmer σ)

theorem checkRange_mute (c : Chip) (addr len : Nat) :
    Mute (p.reported.checkRange c addr len) fun _ => True :=
  .of_mirrors fun log => (p.reported_quiet log).checkRange c addr len

theorem plan_mute (c : Chip) (start len : Nat) (exact : Bool) :
    Mute (p.reported.plan c start len exact) fun plan =>
      Plan.make c.regions start len exact = .ok plan :=
  .after (.of_mirrors fun log => (p.reported_quiet log).tellAll _) fun _ _ => .lift

theorem eraseBlock_mute (f : EraseFunction) (addr len size : Nat) :
    Mute (p.reported.eraseBlock f addr len size) fun _ => True := by
  rw [← quiet_eraseBlock]
  exact .of_mirrors fun log => (p.reported_quiet log).eraseBlock f addr len size

theorem programPage_mute (addr : Nat) (data : Bytes) :
    Mute (p.reported.programPage addr data) fun _ => True := by
  rw [← quiet_programPage]
  exact .of_mirrors fun log => (p.reported_quiet log).programPage addr data

theorem readChip_tells (c : Chip) :
    Tells (p.reported.readChip c) fun _ told => ∀ e ∈ told, e.isReading := by
  refine .bind (.progress p rfl) ?_
  rintro _ _ rfl
  have hranges : Tells (p.reported.readChunked c 0 c.size) fun _ told =>
      ∀ e ∈ told, e.isReading := by
    refine .after (p.checkRange_mute c _ _) fun _ _ => .after .read fun most _ => ?_
    refine .onError p (.after .lift fun t _ => ?_)
    rw [Transfer.walk_eq_fold]
    refine .fold_all (fun buffer k => ?_) _ _
    refine .after (.tell p _) fun _ _ => .after .require fun piece _ => ?_
    refine .after (.of_mirrors fun log => (p.reported_quiet log).readInto _ piece) fun reply _ => ?_
    refine .bind (.progress p rfl) ?_
    rintro _ _ rfl
    refine Tells.require.mono ?_
    rintro _ _ ⟨rfl, _⟩
    simp [Progress.isReading]
  refine hranges.mono fun _ told htold e he => ?_
  rcases List.mem_cons.mp he with rfl | he
  · rfl
  · exact htold e he

/-- The pieces from the cursor on are reported by where they end. -/
theorem writeChunks_tells (data : Bytes) (t : Transfer) (cursor : Nat) (hlo : t.start ≤ cursor)
    (hhi : cursor ≤ t.stop) :
    Tells (Act.fold (fun _ k => p.reported.writeChunk data k) () (t.chunksFrom cursor))
      fun _ told => ∃ ns : List Nat, told = ns.map .written ∧
        Climbs (· < ·) (cursor - t.start) ns (t.stop - t.start) := by
  fun_induction Transfer.chunksFrom t cursor with
  | case1 cursor h ih =>
    have hpos := t.lengthAt_pos h
    have hin := t.lengthAt_inside h
    rw [Act.fold_cons]
    have hchunk : Tells (p.reported.writeChunk data (t.chunkAt cursor)) fun _ told =>
        told = [.written (cursor - t.start + t.lengthAt cursor)] := by
      refine .after (.tell p _) fun _ _ => .after .require fun piece _ => ?_
      refine .after (p.programPage_mute _ piece) fun _ _ => ?_
      exact .progress p rfl
    refine hchunk.bind ?_
    rintro _ _ rfl
    refine (ih (by omega) hin).mono ?_
    rintro _ _ ⟨ns, rfl, hclimbs⟩
    have hend : cursor + t.lengthAt cursor - t.start =
        cursor - t.start + t.lengthAt cursor := by omega
    rw [hend] at hclimbs
    exact ⟨_ :: ns, rfl, .step (by omega) hclimbs⟩
  | case2 cursor h =>
    obtain rfl : cursor = t.stop := by omega
    exact .pure ⟨[], rfl, .here _⟩

theorem writeChunked_tells (c : Chip) (start : Nat) (data : Bytes) :
    Tells (p.reported.writeChunked c start data) fun _ told =>
      ∃ ns : List Nat, told = ns.map .written ∧ Climbs (· < ·) 0 ns data.size := by
  refine .after (p.checkRange_mute c _ _) fun _ _ => .after .read fun most _ => ?_
  refine .onError p (.after .lift fun t ht => ?_)
  obtain ⟨hstart, hstop, _⟩ := Transfer.of?_ok ht
  rw [Transfer.walk_eq_fold]
  refine (p.writeChunks_tells data t t.start (Nat.le_refl _) (by omega)).mono ?_
  rintro _ _ ⟨ns, rfl, hclimbs⟩
  have hlen : t.stop - t.start = data.size := by omega
  rw [Nat.sub_self, hlen] at hclimbs
  exact ⟨ns, rfl, hclimbs⟩

theorem Erased.foldl_next (bs : List Block) (done : Erased) :
    bs.foldl Erased.next done =
      ⟨done.blocks + bs.length, done.bytes + total (bs.map Block.size)⟩ := by
  induction bs generalizing done with
  | nil => rfl
  | cons b bs ih =>
    rw [List.foldl_cons, ih, Erased.next, List.map_cons, total_cons, List.length_cons,
      Nat.add_assoc, Nat.add_assoc, Nat.add_comm 1]

theorem Erased.before_next (done : Erased) {b : Block} (h : 0 < b.size) :
    done.Before (done.next b) :=
  ⟨Nat.lt_succ_self _, Nat.lt_add_of_pos_right h⟩

theorem eraseNext_tells (c : Chip) (done : Erased) (b : Block) :
    Tells (p.reported.eraseNext c done b) fun done' told =>
      done' = done.next b ∧ told = [done'.report] := by
  refine .after (p.eraseBlock_mute _ _ _ _) fun _ _ => .bind (.progress p rfl) ?_
  rintro _ _ rfl
  exact .pure ⟨rfl, rfl⟩

theorem executePlan_tells {plan : Plan} {regions : List Region} {stop : Nat}
    (h : plan.Covers regions start stop) :
    Tells (p.reported.executePlan c plan) fun n told => n = plan.erasedBytes ∧
      ∃ es, told = .erasing plan.blocks.length n :: es.map Erased.report ∧
        Climbs Erased.Before {} es ⟨plan.blocks.length, n⟩ := by
  have hsize : ∀ b ∈ plan.blocks, 0 < b.size := fun b hb => (h.within b hb).size_pos
  refine .after (p.checkRange_mute c _ _) fun _ _ => .bind (.progress p rfl) ?_
  rintro _ _ rfl
  refine .bind (.fold_counts id Erased.next Erased.report Erased.Before
    (fun done b hb => done.before_next (hsize b hb)) fun done b _ =>
      .after (.tell p _) fun _ _ => p.eraseNext_tells c done b) ?_
  rintro done _ ⟨hdone, es, rfl, hclimbs⟩
  rw [id, Erased.foldl_next] at hdone
  subst hdone
  simp only [Nat.zero_add, id] at hclimbs ⊢
  rw [h.erasedBytes_eq]
  exact .pure ⟨rfl, es, by simp, hclimbs⟩

/-- The blocks to update are blocks of the plan, each at most once. -/
theorem blocksToUpdate_mute (image data : Bytes) (start stop : Nat) (blocks : List Block) :
    Mute (p.reported.blocksToUpdate image data start stop blocks) fun update =>
      update.Sublist blocks := by
  have hsort : ∀ (done : List Block) b update, update.reverse.Sublist done →
      Mute (p.reported.sortBlock image data start stop update b) fun update' =>
        update'.reverse.Sublist (done ++ [b]) := by
    intro done b update hdone
    refine .after (q := fun _ => True) ?_ fun stays _ => ?_
    · refine .after .require fun current _ => ?_
      split
      · exact .after .require fun _ _ => .pure ⟨rfl, trivial⟩
      · exact .pure ⟨rfl, trivial⟩
    · split
      · exact .after (.tell p _) fun _ _ =>
          .pure ⟨rfl, hdone.trans (List.sublist_append_left _ _)⟩
      · have hmore : (b :: update).reverse.Sublist (done ++ [b]) := by
          rw [List.reverse_cons]
          exact hdone.append (List.Sublist.refl [b])
        exact .pure ⟨rfl, hmore⟩
  refine .after (Tells.fold_mute (fun done update => update.reverse.Sublist done) hsort ?_ blocks)
    fun _ hupdate => .pure ⟨rfl, hupdate⟩
  exact List.Sublist.refl []

theorem refresh_tells (c : Chip) (data : Bytes) (start stop : Nat) (state : Erased × Bytes)
    (b : Block) :
    Tells (p.reported.refresh c data start stop state b) fun state' told =>
      state'.1 = state.1.next b ∧ told = [state'.1.report] := by
  refine .bind (p.eraseNext_tells c state.1 b) ?_
  rintro done _ ⟨hdone, rfl⟩
  have hmerge : Mute (σ := σ) (merge state.2 data start stop b) fun _ => True :=
    .after .require fun _ _ => .require
  have hrest : Mute (σ := σ) (merge state.2 data start stop b >>= fun image => pure (done, image))
      fun state' => state'.1 = done :=
    .after hmerge fun _ _ => .pure ⟨rfl, rfl⟩
  refine hrest.mono ?_
  rintro state' _ ⟨rfl, rfl⟩
  exact ⟨hdone, rfl⟩

theorem reprogram_tells (c : Chip) (image : Bytes) (written : Nat) (b : Block) :
    Tells (p.reported.reprogram c image written b) fun written' told =>
      written' = written + b.size ∧ told = [.written written'] := by
  refine .after .require fun content _ => ?_
  refine .after (.of_mirrors fun log => (p.reported_quiet log).writeChunked c _ content) ?_
  intro _ _
  refine .bind (.progress p rfl) ?_
  rintro _ _ rfl
  exact .pure ⟨rfl, rfl⟩

theorem foldl_sizes (bs : List Block) (n : Nat) :
    bs.foldl (fun n b => n + b.size) n = n + total (bs.map Block.size) := by
  induction bs generalizing n with
  | nil => rfl
  | cons b bs ih => rw [List.foldl_cons, ih, List.map_cons, total_cons, Nat.add_assoc]

end Programmer

/-- What a write that ends well has told before it reports so: its numbers, of which those of the
erased and the skipped blocks make up the plan. -/
def WriteStats.Accounts (stats : WriteStats) (c : Chip) (start : Nat) (data : Bytes)
    (told : List Progress) : Prop :=
  stats.ToldBy told ∧ ∃ plan, Plan.make c.regions start data.size false = .ok plan ∧
    stats.erases + stats.skipped = plan.blocks.length

namespace Programmer

theorem wipeByBiggestErases_tells (c : Chip) (start : Nat) (data : Bytes) :
    Tells (p.reported.wipeByBiggestErases c start data) fun stats told =>
      stats.Accounts c start data told := by
  refine .after .word fun len hlen => ?_
  subst hlen
  refine .after (p.plan_mute c _ _ _) fun plan hplan => ?_
  refine .bind (p.executePlan_tells (Plan.make_covers hplan)) ?_
  rintro erased _ ⟨_, es, rfl, herased⟩
  refine .bind (.progress p rfl) ?_
  rintro _ _ rfl
  refine .bind (p.writeChunked_tells c start data) ?_
  rintro _ _ ⟨ns, rfl, hwritten⟩
  exact .pure ⟨⟨[], es, ns, by simp, by simp, herased, hwritten⟩, plan, hplan, rfl⟩

theorem wipeIfChanges_tells (c : Chip) (start : Nat) (data : Bytes) :
    Tells (p.reported.wipeIfChanges c start data) fun stats told =>
      stats.Accounts c start data told := by
  refine .after .word fun len hlen => ?_
  subst hlen
  refine .after (p.plan_mute c _ _ _) fun plan hplan => ?_
  refine .after (p.checkRange_mute c _ _) fun _ _ => .bind (p.readChip_tells c) ?_
  rintro image reads hreads
  refine .after (p.blocksToUpdate_mute _ _ _ _ _) fun update hupdate => ?_
  have hsize : ∀ b ∈ update, 0 < b.size := fun b hb =>
    ((Plan.make_covers hplan).within b (hupdate.subset hb)).size_pos
  refine .bind (.progress p rfl) ?_
  rintro _ _ rfl
  refine .bind (.fold_counts Prod.fst Erased.next Erased.report Erased.Before
    (fun done b hb => done.before_next (hsize b hb)) fun state b _ =>
      p.refresh_tells c data _ _ state b) ?_
  rintro ⟨done, image'⟩ _ ⟨hdone, es, rfl, herased⟩
  refine .bind (.progress p rfl) ?_
  rintro _ _ rfl
  refine .bind (.fold_counts id (fun n (b : Block) => n + b.size) .written (· < ·)
    (fun n b hb => Nat.lt_add_of_pos_right (hsize b hb)) fun written b _ =>
      p.reprogram_tells c image' written b) ?_
  rintro written _ ⟨hwritten, ns, rfl, hwrites⟩
  dsimp only at hdone herased
  rw [Erased.foldl_next] at hdone
  rw [id, foldl_sizes] at hwritten
  subst hdone hwritten
  simp only [Nat.zero_add, id] at herased hwrites ⊢
  exact .pure ⟨⟨reads, es, ns, by simp, hreads, herased, hwrites⟩, plan, hplan,
    Nat.add_sub_of_le hupdate.length_le⟩

/-- A write that ends well reports at the end, and only there, that it is complete, with what it
has told before; one that ends badly never does. -/
theorem write_tells (c : Chip) (strategy : Strategy) (start : Nat) (data : Bytes)
    (hdata : 0 < data.size) :
    (p.reported.write c strategy start data).Adds fun told r => match r with
      | .ok stats => ∃ before, told = before ++ [.complete stats] ∧
          (∀ e ∈ before, e.isComplete = false) ∧ stats.Accounts c start data before
      | .error _ => ∀ e ∈ told, e.isComplete = false := by
  have hby : Tells (p.reported.writeBy c start data strategy) fun stats told =>
      stats.Accounts c start data told := by
    cases strategy with
    | wipeByBiggestErases => exact p.wipeByBiggestErases_tells c start data
    | wipeIfChanges => exact p.wipeIfChanges_tells c start data
  have hne : ¬(data.size == 0) = true := by
    simp only [beq_iff_eq]
    omega
  refine Tells.leads (p.checkRange_mute c start data.size) (fun _ _ => ?_) fun _ _ htold => htold
  rw [if_neg hne]
  refine Tells.leads (.tell p _) (fun _ _ => ?_) fun _ _ htold => htold
  refine .bind hby ?_ fun _ _ htold => htold.1
  rintro before stats ⟨hquiet, hstats⟩
  intro s log
  exact ⟨[.complete stats], rfl, before, rfl, hquiet, hstats stats rfl⟩

end Programmer
end NorFlash
