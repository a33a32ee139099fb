import NorFlash.Proofs.Script

namespace NorFlash

variable {σ : Type} {p : Programmer σ} {view : σ → Emulator} {faultless : Prop} {s : σ} {c : Chip}
  {start len i : Nat} {data image : Bytes} {plan : Plan} {b : Block} {done : List Block}

/-- What has become of the image of a chip when some blocks are merged into it: in these it is what
the cells are to hold, and nowhere is it anything but this or what it was. -/
structure Merged (cells goal : Bytes) (done : List Block) (image : Bytes) : Prop where
  size : image.size = goal.size
  merged : ∀ b ∈ done, ∀ i, b.start ≤ i → i < b.stop → image.byteAt i = goal.byteAt i
  old_or_new : ∀ i, image.byteAt i = cells.byteAt i ∨ image.byteAt i = goal.byteAt i

theorem Merged.extract_eq {cells goal : Bytes} (h : Merged cells goal done image) (hb : b ∈ done)
    (hin : b.stop ≤ goal.size) : image.extract b.start b.stop = goal.extract b.start b.stop := by
  have himage : b.stop ≤ image.size := h.size ▸ hin
  have hsize : (image.extract b.start b.stop).size = b.stop - b.start :=
    Bytes.size_extract_of_le himage
  refine Bytes.ext_byteAt ?_ fun i hi => ?_
  · rw [hsize, Bytes.size_extract_of_le hin]
  · rw [hsize] at hi
    rw [Bytes.byteAt_extract himage (by omega), Bytes.byteAt_extract hin (by omega)]
    exact h.merged b hb _ (Nat.le_add_right _ _) (by omega)

/-- Laying a part of the data over the image makes the image right there. -/
theorem Writable.byteAt_put {e : Emulator} (h : Writable c e start data plan) {lo hi : Nat}
    (hlo : lo ≤ hi) (hhi : hi ≤ data.size) (hs : image.size = c.size) (i : Nat) :
    Bytes.byteAt (image.overlay (start + lo) (data.extract lo hi)) i =
      if start + lo ≤ i ∧ i < start + hi then (e.cells.overlay start data).byteAt i
      else image.byteAt i := by
  have hin := h.inside
  have hpart : (data.extract lo hi).size = hi - lo := Bytes.size_extract_of_le hhi
  rw [Bytes.byteAt_overlay (by omega), hpart]
  by_cases hi' : start + lo ≤ i ∧ i < start + hi
  · have hplace : lo + (i - (start + lo)) = i - start := by omega
    rw [if_pos (by omega), if_pos hi', Bytes.byteAt_extract hhi (by omega), h.byteAt_goal,
      if_pos (by omega), hplace]
  · rw [if_neg (by omega), if_neg hi']

/-- A block is merged by laying over the image what the data has for it: the rest of the block is
not in the range and was right before. -/
theorem Merged.put {e : Emulator} (hm : Merged e.cells (e.cells.overlay start data) done image)
    (h : Writable c e start data plan) (hb : b ∈ plan.blocks) {lo hi : Nat}
    (hlo : start + lo = max b.start start) (hhi : start + hi = min b.stop (start + data.size)) :
    Merged e.cells (e.cells.overlay start data) (done ++ [b])
      (image.overlay (start + lo) (data.extract lo hi)) := by
  have hlt := (h.covers.within b hb).start_lt_stop
  have hmeets := h.covers.meets hb
  have hin := h.inside
  have himage : image.size = c.size := hm.size.trans h.size_goal
  have hput := h.byteAt_put (by omega : lo ≤ hi) (by omega) himage
  have hpart : (data.extract lo hi).size = hi - lo := Bytes.size_extract_of_le (by omega)
  refine ⟨(Bytes.size_overlay (by omega)).trans hm.size, ?_, ?_⟩
  · intro b' hb' i h₁ h₂
    rw [hput]
    split
    case isTrue => rfl
    case isFalse hi' =>
      rcases List.mem_append.mp hb' with hb' | hb'
      · exact hm.merged b' hb' i h₁ h₂
      · rw [List.mem_singleton.mp hb'] at h₁ h₂
        rcases hm.old_or_new i with hold | hnew
        · rw [hold, h.byteAt_goal, if_neg (by omega)]
        · exact hnew
  · intro i
    rw [hput]
    split
    case isTrue => exact .inr rfl
    case isFalse => exact hm.old_or_new i

/-- The count of some erased blocks. -/
def Programmer.Erased.of (bs : List Block) : Programmer.Erased :=
  ⟨bs.length, total (bs.map Block.size)⟩

theorem Programmer.Erased.of_snoc (bs : List Block) (b : Block) :
    Erased.of (bs ++ [b]) = ⟨(Erased.of bs).blocks + 1, (Erased.of bs).bytes + b.size⟩ := by
  simp [Erased.of]

/-- What a write says of itself. -/
def Strategy.stats (e : Emulator) (start : Nat) (data : Bytes) (p : Plan) : Strategy → WriteStats
  | wipeByBiggestErases =>
    { erases := p.blocks.length, erased := total (p.blocks.map Block.size), written := data.size }
  | wipeIfChanges =>
    let bs := p.changed e start data
    { erases := bs.length, skipped := p.blocks.length - bs.length,
      erased := total (bs.map Block.size), written := total (bs.map Block.size) }

namespace Programmer.Carries

theorem plan_ok (hp : p.Carries view faultless) {exact : Bool}
    (h : Plan.make c.regions start len exact = .ok plan) :
    Gives view faultless (p.plan c start len exact) s plan := by
  refine .bind_value (hp.tellAll _) fun s₁ hv => ?_
  rw [h, ← hv]
  exact Gives.lift

theorem eraseNext (hp : p.Carries view faultless) (he : (view s).Emulates c) (hb : b.Fits c)
    (erased : Erased) :
    Performs view faultless (p.eraseNext c erased b) s [.ofBlock b]
      (fun a _ => a = ⟨erased.blocks + 1, erased.bytes + b.size⟩) := by
  refine .bind_last (hp.eraseBlock he hb) fun _ s₁ _ _ => ?_
  refine .bind_value (hp.progress _) fun s₂ _ => ?_
  exact .pure rfl

/-- Carrying out a plan erases its blocks. -/
theorem executePlan (hp : p.Carries view faultless) (he : (view s).Emulates c)
    (hb : ∀ b ∈ plan.blocks, b.Fits c) (hin : plan.start + plan.erasedBytes ≤ c.size) :
    Performs view faultless (p.executePlan c plan) s (plan.blocks.map .ofBlock)
      (fun n _ => n = total (plan.blocks.map Block.size)) := by
  refine .bind_value (.checkRange hin) fun s₁ hv₁ => ?_
  refine .bind_value (hp.progress _) fun s₂ hv₂ => ?_
  rw [← hv₁, ← hv₂] at he
  rw [List.map_eq_flatMap]
  refine .bind_last (.fold (fun pre erased => erased = Erased.of pre) rfl ?_) ?_
  · intro pre b erased s₃ hmem hcount h₃
    refine .bind_value (hp.tell _) fun s₄ hv₄ => ?_
    rw [← hv₄] at h₃
    rw [Erased.of_snoc, ← hcount]
    exact hp.eraseNext (he.after h₃) (hb b hmem) erased
  · intro erased s₃ _ hcount
    rw [hcount]
    exact .pure rfl

theorem wipeByBiggestErases (hp : p.Carries view faultless)
    (h : Writable c (view s) start data plan)
    (hplan : Plan.make c.regions start data.size false = .ok plan)
    (hm : faultless → 0 < (view s).maxWrite) :
    Performs view faultless (p.wipeByBiggestErases c start data) s
      (Strategy.wipeByBiggestErases.script (view s) start data plan)
      (fun a _ => a = Strategy.wipeByBiggestErases.stats (view s) start data plan) := by
  have hlt := h.accepted.size_lt
  have hin := h.inside
  refine .bind_value (.word (by omega)) fun s₁ hv₁ => ?_
  refine .bind_value (hp.plan_ok hplan) fun s₂ hv₂ => ?_
  rw [← hv₁, ← hv₂] at h hm ⊢
  rw [Strategy.script, Strategy.wipes, Strategy.writes]
  refine .bind (hp.executePlan h.emulates (fun _ => h.fits) h.plan_inside) ?_
  intro bytes s₃ h₃ hbytes
  subst hbytes
  refine .bind_value (hp.progress _) fun s₄ hv₄ => ?_
  rw [← hv₄] at h₃
  obtain rfl := h.emulates.chip
  have hwrite := hp.writeChunked (h.emulates.after h₃) h.accepted.page_pos hin h.addressable
    (by rwa [h₃.maxWrite])
  rw [h₃.maxWrite] at hwrite
  exact .bind_last hwrite fun _ _ _ _ => .pure rfl

/-- Whether a block stays is decided by the cells alone. -/
theorem unchanged {e : Emulator} (h : Writable c e start data plan) (hb : b ∈ plan.blocks) :
    Gives view faultless (Programmer.unchanged e.cells data start (start + data.size) b) s
      (b.stays e.cells data start) := by
  have hlt := (h.covers.within b hb).start_lt_stop
  unfold Programmer.unchanged shareOf
  dsimp only
  rw [Bytes.slice?_of_le (Nat.le_of_lt hlt) (h.block_inside hb)]
  refine .bind_value .require fun s₁ hv₁ => ?_
  by_cases hin : start ≤ b.start ∧ b.stop ≤ start + data.size
  · rw [if_pos (by simpa using hin), Nat.max_eq_left hin.1, Nat.min_eq_left hin.2,
      Bytes.slice?_of_le (by omega) (by omega)]
    refine .bind_value .require fun s₂ hv₂ => ?_
    refine .pure ⟨?_, hv₂.trans hv₁⟩
    rw [Block.stays, decide_eq_true hin.1, decide_eq_true hin.2, Bool.true_and, Bool.true_and]
  · rw [if_neg (by simpa using hin)]
    refine .pure ⟨?_, hv₁⟩
    have hout : (decide (start ≤ b.start) && decide (b.stop ≤ start + data.size)) = false := by
      simpa using hin
    rw [Block.stays, hout, Bool.false_and]

theorem sortBlock (hp : p.Carries view faultless) {e : Emulator}
    (h : Writable c e start data plan) (hb : b ∈ plan.blocks) (update : List Block) :
    Gives view faultless (p.sortBlock e.cells data start (start + data.size) update b) s
      (if b.stays e.cells data start then update else b :: update) := by
  refine .bind_value (unchanged h hb) fun s₁ hv₁ => ?_
  cases b.stays e.cells data start with
  | true =>
    refine .bind_value (hp.tell _) fun s₂ hv₂ => ?_
    exact .pure ⟨rfl, hv₂.trans hv₁⟩
  | false => exact .pure ⟨rfl, hv₁⟩

theorem blocksToUpdate (hp : p.Carries view faultless) {e : Emulator}
    (h : Writable c e start data plan) :
    Performs view faultless
      (p.blocksToUpdate e.cells data start (start + data.size) plan.blocks) s []
      (fun a _ => a = plan.blocks.filter fun b => !b.stays e.cells data start) := by
  refine .bind_idle (.fold_idle
    (fun pre update => update = (pre.filter fun b => !b.stays e.cells data start).reverse)
    rfl ?_) ?_
  · intro pre b update s₁ hb hupdate
    refine (hp.sortBlock h hb _).mono fun a _ _ ha => ?_
    rw [ha.1, hupdate, List.filter_append, List.filter_singleton]
    cases b.stays e.cells data start <;> simp
  · intro update s₁ _ hupdate
    rw [hupdate]
    exact .pure (List.reverse_reverse _)

/-- What the data has for a block is merged into the image. -/
theorem merge {e : Emulator} (h : Writable c e start data plan) (hb : b ∈ plan.blocks)
    (hm : Merged e.cells (e.cells.overlay start data) done image) :
    Performs view faultless (Programmer.merge image data start (start + data.size) b) s []
      (fun a _ => Merged e.cells (e.cells.overlay start data) (done ++ [b]) a) := by
  have hlt := (h.covers.within b hb).start_lt_stop
  have hmeets := h.covers.meets hb
  have hstop := (h.fits hb).inside
  have himage : image.size = c.size := hm.size.trans h.size_goal
  unfold Programmer.merge shareOf
  dsimp only
  generalize hlo : max b.start start - start = lo
  generalize hhi : min b.stop (start + data.size) - start = hi
  rw [Bytes.slice?_of_le (by omega) (by omega)]
  refine .bind_value .require fun s₁ _ => ?_
  have hpart : (data.extract lo hi).size = hi - lo := Bytes.size_extract_of_le (by omega)
  rw [Bytes.overlay?_of_le (by omega)]
  refine Gives.require.mono fun a _ _ ha => ?_
  rw [ha.1]
  exact hm.put h hb (by omega) (by omega)

theorem refresh (hp : p.Carries view faultless) (he : (view s).Emulates c) {e : Emulator}
    (h : Writable c e start data plan) (hb : b ∈ plan.blocks) (erased : Erased)
    (hm : Merged e.cells (e.cells.overlay start data) done image) :
    Performs view faultless (p.refresh c data start (start + data.size) (erased, image) b) s
      [.ofBlock b]
      (fun a _ => a.1 = ⟨erased.blocks + 1, erased.bytes + b.size⟩ ∧
        Merged e.cells (e.cells.overlay start data) (done ++ [b]) a.2) := by
  refine .bind_last (hp.eraseNext he (h.fits hb) erased) fun _ s₁ _ hcount => ?_
  refine .bind_idle (merge h hb hm) fun _ s₂ _ hm' => ?_
  exact .pure ⟨hcount, hm'⟩

/-- A block is programmed with its part of the image, which is by then its part of the goal. -/
theorem reprogram (hp : p.Carries view faultless) (he : (view s).Emulates c) {e : Emulator}
    (h : Writable c e start data plan) (hb : b ∈ plan.blocks) (hdone : b ∈ done)
    (hm : Merged e.cells (e.cells.overlay start data) done image)
    (hlimit : faultless → 0 < (view s).maxWrite) (written : Nat) :
    Performs view faultless (p.reprogram c image written b) s
      (CellOperation.programs c.pageSize (view s).maxWrite b.start
        ((e.cells.overlay start data).extract b.start b.stop))
      (fun a _ => a = written + b.size) := by
  have hlt := (h.covers.within b hb).start_lt_stop
  have hstop := (h.fits hb).inside
  have hgoal := h.size_goal
  have hsize := hm.size.trans hgoal
  unfold Programmer.reprogram
  rw [Bytes.slice?_of_le (Nat.le_of_lt hlt) (by omega), hm.extract_eq hdone (by omega)]
  refine .bind_value .require fun s₁ hv₁ => ?_
  rw [← hv₁] at he hlimit ⊢
  refine .bind_last (hp.quiet.writeChunked he h.accepted.page_pos ?_ h.addressable hlimit)
    fun _ s₂ _ _ => ?_
  · rw [h.part_stop hb]
    exact hstop
  · refine .bind_value (hp.progress _) fun s₃ _ => ?_
    exact .pure rfl

/-- All blocks are erased before any is programmed, and by then the image is right in each. -/
theorem refresh_fold (hp : p.Carries view faultless) (he : (view s).Emulates c) {e : Emulator}
    (h : Writable c e start data plan) {bs : List Block} (hbs : ∀ b ∈ bs, b ∈ plan.blocks) :
    Performs view faultless
      (Act.fold (p.refresh c data start (start + data.size)) ({}, e.cells) bs) s
      (bs.map .ofBlock)
      (fun a _ => a.1 = Erased.of bs ∧ Merged e.cells (e.cells.overlay start data) bs a.2) := by
  have hnone : Merged e.cells (e.cells.overlay start data) [] e.cells :=
    ⟨(Bytes.size_overlay h.data_fits).symm, fun _ hb => (by cases hb), fun _ => .inl rfl⟩
  rw [List.map_eq_flatMap]
  refine .fold (fun pre (a : Erased × Bytes) =>
    a.1 = Erased.of pre ∧ Merged e.cells (e.cells.overlay start data) pre a.2) ⟨rfl, hnone⟩ ?_
  intro pre b a s₁ hb hinv h₁
  rw [Erased.of_snoc, ← hinv.1]
  exact hp.refresh (he.after h₁) h (hbs b hb) a.1 hinv.2

theorem reprogram_fold (hp : p.Carries view faultless) (he : (view s).Emulates c) {e : Emulator}
    (h : Writable c e start data plan) {bs : List Block} (hbs : ∀ b ∈ bs, b ∈ plan.blocks)
    (hm : Merged e.cells (e.cells.overlay start data) bs image)
    (hlimit : faultless → 0 < (view s).maxWrite) :
    Performs view faultless (Act.fold (p.reprogram c image) 0 bs) s
      (bs.flatMap fun b => CellOperation.programs c.pageSize (view s).maxWrite b.start
        ((e.cells.overlay start data).extract b.start b.stop))
      (fun a _ => a = total (bs.map Block.size)) := by
  refine .fold (fun pre written => written = total (pre.map Block.size)) rfl ?_
  intro pre b written s₁ hb hcount h₁
  have hwrite := hp.reprogram (he.after h₁) h (hbs b hb) hb hm (by rwa [h₁.maxWrite]) written
  rw [h₁.maxWrite] at hwrite
  refine hwrite.mono fun a _ _ ha => ?_
  rw [ha, hcount]
  simp

theorem wipeIfChanges (hp : p.Carries view faultless)
    (h : Writable c (view s) start data plan)
    (hplan : Plan.make c.regions start data.size false = .ok plan)
    (hr : faultless → 0 < (view s).maxRead) (hw : faultless → 0 < (view s).maxWrite) :
    Performs view faultless (p.wipeIfChanges c start data) s
      (Strategy.wipeIfChanges.script (view s) start data plan)
      (fun a _ => a = Strategy.wipeIfChanges.stats (view s) start data plan) := by
  have hlt := h.accepted.size_lt
  have hin := h.inside
  refine .bind_value (.word (by omega)) fun s₁ hv₁ => ?_
  refine .bind_value (hp.plan_ok hplan) fun s₂ hv₂ => ?_
  refine .bind_value (.checkRange h.plan_inside) fun s₃ hv₃ => ?_
  rw [← hv₁, ← hv₂, ← hv₃] at h hr hw ⊢
  obtain rfl := h.emulates.chip
  rw [Strategy.script, Strategy.wipes, Strategy.writes, List.append_assoc]
  refine .bind (hp.readChip h.emulates.size h.accepted.page_pos h.addressable hr) ?_
  intro image s₄ h₄ himage
  obtain ⟨hread, rfl⟩ := himage
  refine .bind_idle (hp.blocksToUpdate h) ?_
  intro update s₅ h₅ hupdate
  rw [← Plan.changed_of_readable hread] at hupdate
  subst hupdate
  have hmem : ∀ b ∈ plan.changed (view s₃) start data, b ∈ plan.blocks := fun _ hb =>
    (Plan.mem_changed hb).1
  refine .bind_value (hp.progress _) fun s₆ hv₆ => ?_
  rw [← hv₆] at h₅
  have h₃₆ := h₄.trans h₅
  refine .bind (hp.refresh_fold (h.emulates.after h₃₆) h hmem) fun a s₇ h₇ ha => ?_
  obtain ⟨hcount, hm⟩ := ha
  refine .bind_value (hp.progress _) fun s₈ hv₈ => ?_
  rw [← hv₈] at h₇
  have h₃₈ := h₃₆.trans h₇
  have hwrites := hp.reprogram_fold (h.emulates.after h₃₈) h hmem hm (by rwa [h₃₈.maxWrite])
  rw [h₃₈.maxWrite] at hwrites
  refine .bind_last hwrites fun written _ _ hwritten => .pure ?_
  rw [hcount, hwritten]
  rfl

/-- A write whose range can be planned performs the script of its strategy, and what it says of
itself is decided by the plan and the cells. -/
theorem write_counts (hp : p.Carries view faultless) {strategy : Strategy}
    (h : Writable c (view s) start data plan)
    (hplan : Plan.make c.regions start data.size false = .ok plan)
    (hr : faultless → strategy = .wipeIfChanges → 0 < (view s).maxRead)
    (hw : faultless → 0 < (view s).maxWrite) :
    Performs view faultless (p.write c strategy start data) s
      (strategy.script (view s) start data plan)
      (fun a _ => a = strategy.stats (view s) start data plan) := by
  refine .bind_value (.checkRange h.inside) fun s₁ hv₁ => ?_
  rw [if_neg (Plan.len_ne_zero hplan)]
  refine .bind_value (hp.tell _) fun s₂ hv₂ => ?_
  rw [← hv₁, ← hv₂] at h hr hw ⊢
  refine .bind_last (r := fun a _ => a = strategy.stats (view s₂) start data plan) ?_ ?_
  · cases strategy with
    | wipeByBiggestErases => exact hp.wipeByBiggestErases h hplan hw
    | wipeIfChanges => exact hp.wipeIfChanges h hplan (fun hf => hr hf rfl) hw
  · intro stats s₃ _ hstats
    refine .bind_value (hp.progress _) fun s₄ _ => ?_
    exact .pure hstats

theorem write (hp : p.Carries view faultless) {strategy : Strategy}
    (h : Writable c (view s) start data plan)
    (hplan : Plan.make c.regions start data.size false = .ok plan)
    (hr : faultless → strategy = .wipeIfChanges → 0 < (view s).maxRead)
    (hw : faultless → 0 < (view s).maxWrite) :
    Performs view faultless (p.write c strategy start data) s
      (strategy.script (view s) start data plan) (fun _ _ => True) :=
  (hp.write_counts h hplan hr hw).mono fun _ _ _ _ => trivial

/-- A write whose range cannot be planned performs nothing. -/
theorem write_unplanned (hp : p.Carries view faultless) {strategy : Strategy} {e : Error}
    (hin : start + data.size ≤ c.size) (hsize : c.size < addressSpace)
    (hplan : Plan.make c.regions start data.size false = .error e) (hf : ¬faultless) :
    Performs view faultless (p.write c strategy start data) s [] (fun _ _ => True) := by
  have hstop {s₁ : σ} : Performs view faultless (p.plan c start data.size false) s₁ []
      (fun _ _ => False) := by
    refine .bind_value (hp.tellAll _) fun s₂ _ => ?_
    rw [hplan]
    exact .stopped rfl hf List.nil_prefix (.refl _)
  refine .bind_value (.checkRange hin) fun s₁ _ => ?_
  split
  case isTrue =>
    refine .bind_value (hp.progress _) fun s₂ _ => ?_
    exact .pure trivial
  case isFalse =>
    refine .bind_value (hp.tell _) fun s₂ _ => ?_
    refine .bind_last (r := fun _ _ => False) ?_ fun _ _ _ h => h.elim
    cases strategy with
    | wipeByBiggestErases =>
      refine .bind_value (.word (by omega)) fun s₃ _ => ?_
      exact .bind_idle hstop fun _ _ _ h => h.elim
    | wipeIfChanges =>
      refine .bind_value (.word (by omega)) fun s₃ _ => ?_
      exact .bind_idle hstop fun _ _ _ h => h.elim

end Programmer.Carries

/-- A small chip with blocks of two sizes, one inside the other, and a region that is not active. -/
def Chip.sample : Chip where
  id := "sample"
  vendor := "sample"
  name := "sample"
  manufacturer := 0
  model := 0
  size := 32
  pageSize := 4
  features := {}
  voltageMin := 0
  voltageMax := 0
  probe := .rdid
  regions := [⟨0, 4, 8, .erase20⟩, ⟨0, 8, 4, .eraseD8⟩, ⟨3, 5, 0, .erase52⟩]

theorem Chip.sample_accepted : sample.Accepted :=
  toChips_vendorDefinition.mp (by cbv)

theorem Chip.sample_regular : Chip.sample.Regular :=
  ⟨by decide, by decide⟩

/-- A plan for a range out of step with the blocks takes blocks of both sizes. -/
theorem Chip.sample_plan : Plan.make Chip.sample.regions 6 13 false =
    .ok ⟨[⟨⟨0, 4, 8, .erase20⟩, 1⟩, ⟨⟨0, 8, 4, .eraseD8⟩, 1⟩, ⟨⟨0, 4, 8, .erase20⟩, 4⟩]⟩ := by
  cbv

namespace Emulator

variable {e : Emulator}

/-- The small chip with old content, behind narrow limits. -/
def sample : Emulator :=
  { ofChip Chip.sample with
    busyPolls := 2, maxRead := 5, maxWrite := 3, cells := Bytes.filled 32 0x5A }

theorem sample_emulates : sample.Emulates Chip.sample :=
  ⟨rfl, Bytes.size_filled 32 0x5A, by decide, by decide⟩

theorem Emulates.writable (he : e.Emulates c) (hc : c.Accepted) (hr : c.Regular)
    (hin : start + data.size ≤ c.size)
    (hplan : Plan.make c.regions start data.size false = .ok plan) :
    Writable c e start data plan :=
  ⟨hc, hr, he, hin, Plan.make_covers hplan⟩

/-- A write that erases only what changes leaves every byte outside its range as it was. -/
theorem wipeIfChanges_overlays (hc : c.Accepted) (hr : c.Regular) (he : e.Emulates c)
    (hread : 0 < e.maxRead) (hwrite : 0 < e.maxWrite) (hin : start + data.size ≤ c.size)
    (hplan : Plan.make c.regions start data.size false = .ok plan) :
    ∃ stats e', programmer.write c .wipeIfChanges start data e = (.ok stats, e') ∧
      e'.cells = e.cells.overlay start data := by
  have h := he.writable hc hr hin hplan
  have hp := Emulator.programmer_carries True
  have hrun : Performs id True (programmer.write c .wipeIfChanges start data) e _
      (fun _ _ => True) :=
    hp.write h hplan (fun _ _ => hread) (fun _ => hwrite)
  obtain ⟨stats, e', hx, ha, _⟩ := hrun.exists_ok trivial
  refine ⟨stats, e', hx, Bytes.ext_byteAt ?_ fun i _ => ?_⟩
  · rw [Bytes.size_overlay h.data_fits]
    exact ha.size
  · exact (congrFun ha.content i).trans (h.effects_changes hread hwrite i)

theorem wipeIfChanges_overlays_sample :
    ∃ stats e', programmer.write Chip.sample .wipeIfChanges 6 (Bytes.filled 13 0x0F) sample =
        (.ok stats, e') ∧
      e'.cells = sample.cells.overlay 6 (Bytes.filled 13 0x0F) := by
  have hin : 6 + (Bytes.filled 13 0x0F).size ≤ Chip.sample.size := by decide
  exact wipeIfChanges_overlays Chip.sample_accepted Chip.sample_regular sample_emulates
    (by decide) (by decide) hin Chip.sample_plan

/-- A write that erases every block under its range leaves the data there, erases the rest of the
plan and touches nothing else. -/
theorem wipeByBiggestErases_fills (hc : c.Accepted) (hr : c.Regular) (he : e.Emulates c)
    (hwrite : 0 < e.maxWrite) (hin : start + data.size ≤ c.size)
    (hplan : Plan.make c.regions start data.size false = .ok plan) :
    ∃ stats e', programmer.write c .wipeByBiggestErases start data e = (.ok stats, e') ∧
      e'.cells.size = e.cells.size ∧ ∀ i, e'.cells.byteAt i =
        if start ≤ i ∧ i < start + data.size then data.byteAt (i - start)
        else if plan.start ≤ i ∧ i < plan.stop then erased
        else e.cells.byteAt i := by
  have h := he.writable hc hr hin hplan
  have hp := Emulator.programmer_carries True
  have hrun : Performs id True (programmer.write c .wipeByBiggestErases start data) e _
      (fun _ _ => True) :=
    hp.write h hplan (fun _ hs => nomatch hs) (fun _ => hwrite)
  obtain ⟨stats, e', hx, ha, _⟩ := hrun.exists_ok trivial
  refine ⟨stats, e', hx, ha.size, fun i => ?_⟩
  exact (congrFun ha.content i).trans (h.effects_biggest hwrite i)

theorem wipeByBiggestErases_fills_sample :
    ∃ stats e', programmer.write Chip.sample .wipeByBiggestErases 6 (Bytes.filled 13 0x0F) sample =
        (.ok stats, e') ∧
      e'.cells.size = sample.cells.size ∧ ∀ i, e'.cells.byteAt i =
        if 6 ≤ i ∧ i < 6 + 13 then Bytes.byteAt (Bytes.filled 13 0x0F) (i - 6)
        else if 4 ≤ i ∧ i < 20 then erased
        else sample.cells.byteAt i := by
  have hin : 6 + (Bytes.filled 13 0x0F).size ≤ Chip.sample.size := by decide
  exact wipeByBiggestErases_fills Chip.sample_accepted Chip.sample_regular sample_emulates
    (by decide) hin Chip.sample_plan

end Emulator
end NorFlash
