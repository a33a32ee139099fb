import NorFlash.Flash.Write
import NorFlash.Proofs.Ranges

namespace NorFlash

/-- A write that an emulated chip can take: the range lies in the chip and the plan covers it. -/
structure Writable (c : Chip) (e : Emulator) (start : Nat) (data : Bytes) (p : Plan) : Prop where
  accepted : c.Accepted
  regular : c.Regular
  emulates : e.Emulates c
  inside : start + data.size ≤ c.size
  covers : p.Covers c.regions start (start + data.size)

/-- The block lies in the range and holds already what it is to hold. -/
def Block.stays (image data : Bytes) (start : Nat) (b : Block) : Bool :=
  start ≤ b.start && b.stop ≤ start + data.size &&
    Bytes.same (image.extract b.start b.stop) (data.extract (b.start - start) (b.stop - start))

/-- The blocks of a plan that change. On a chip that cannot be read none is known to. -/
def Plan.changed (p : Plan) (e : Emulator) (start : Nat) (data : Bytes) : List Block :=
  if e.maxRead = 0 then [] else p.blocks.filter fun b => !b.stays e.cells data start

namespace Strategy

/-- What is performed before anything is programmed. -/
def wipes (e : Emulator) (start : Nat) (data : Bytes) (p : Plan) : Strategy → List CellOperation
  | wipeByBiggestErases => p.blocks.map .ofBlock
  | wipeIfChanges => CellOperation.reads e.chip.pageSize e.maxRead 0 e.chip.size ++
      (p.changed e start data).map .ofBlock

/-- What is programmed. -/
def writes (e : Emulator) (start : Nat) (data : Bytes) (p : Plan) : Strategy → List CellOperation
  | wipeByBiggestErases => CellOperation.programs e.chip.pageSize e.maxWrite start data
  | wipeIfChanges => (p.changed e start data).flatMap fun b =>
      CellOperation.programs e.chip.pageSize e.maxWrite b.start
        ((e.cells.overlay start data).extract b.start b.stop)

/-- All that a write performs. -/
def script (e : Emulator) (start : Nat) (data : Bytes) (p : Plan) (strategy : Strategy) :
    List CellOperation :=
  strategy.wipes e start data p ++ strategy.writes e start data p

end Strategy

theorem Emulator.erased_and (v : UInt8) : erased &&& v = v := UInt8.neg_one_and

variable {c : Chip} {e : Emulator} {start i : Nat} {data : Bytes} {p : Plan} {b : Block}
  {strategy : Strategy} {op : CellOperation}

theorem Plan.changed_of_readable (hr : 0 < e.maxRead) :
    p.changed e start data = p.blocks.filter fun b => !b.stays e.cells data start :=
  if_neg (Nat.ne_of_gt hr)

theorem Plan.mem_changed (h : b ∈ p.changed e start data) :
    b ∈ p.blocks ∧ 0 < e.maxRead ∧ b.stays e.cells data start = false := by
  unfold changed at h
  split at h
  case isTrue => cases h
  case isFalse hr =>
    obtain ⟨hb, hs⟩ := List.mem_filter.mp h
    exact ⟨hb, Nat.pos_of_ne_zero hr, by simpa using hs⟩

theorem Plan.changed_or_stays (hb : b ∈ p.blocks) (hr : 0 < e.maxRead) :
    b ∈ p.changed e start data ∨ b.stays e.cells data start = true := by
  cases hs : b.stays e.cells data start with
  | true => exact .inr rfl
  | false =>
    left
    rw [changed_of_readable hr]
    exact List.mem_filter.mpr ⟨hb, by rw [hs]; rfl⟩

/-- A write stops short of programming where the limits do not allow it to go on. -/
theorem Strategy.limits_of_mem_writes (h : op ∈ strategy.writes e start data p) :
    0 < e.maxWrite ∧ (strategy = wipeIfChanges → 0 < e.maxRead) := by
  cases strategy with
  | wipeByBiggestErases => exact ⟨CellOperation.most_pos_of_mem_programs h, nofun⟩
  | wipeIfChanges =>
    obtain ⟨b, hb, hop⟩ := List.mem_flatMap.mp h
    exact ⟨CellOperation.most_pos_of_mem_programs hop, fun _ => (Plan.mem_changed hb).2.1⟩

theorem Strategy.wipes_wipe (h : op ∈ strategy.wipes e start data p) : op.Wipes p.blocks := by
  cases strategy with
  | wipeByBiggestErases =>
    obtain ⟨b, hb, rfl⟩ := List.mem_map.mp h
    exact .inr ⟨b, hb, rfl⟩
  | wipeIfChanges =>
    rcases List.mem_append.mp h with h | h
    · exact .inl (CellOperation.mem_reads h)
    · obtain ⟨b, hb, rfl⟩ := List.mem_map.mp h
      exact .inr ⟨b, (Plan.mem_changed hb).1, rfl⟩

namespace Writable

variable (h : Writable c e start data p)
include h

theorem fits (hb : b ∈ p.blocks) : b.Fits c :=
  (h.covers.within b hb).fits_chip h.accepted h.regular

theorem data_fits : start + data.size ≤ e.cells.size := h.emulates.size ▸ h.inside

theorem block_inside (hb : b ∈ p.blocks) : b.stop ≤ e.cells.size :=
  h.emulates.size ▸ (h.fits hb).inside

theorem addressable : c.size ≤ addressSpace := Nat.le_of_lt h.accepted.size_lt

theorem page_pos : 0 < e.chip.pageSize := h.emulates.chip ▸ h.accepted.page_pos

theorem data_addressable : start + data.size ≤ addressSpace :=
  Nat.le_trans h.inside h.addressable

theorem plan_inside : p.start + p.erasedBytes ≤ c.size := h.covers.inside h.accepted

/-- The content that is to be in the cells. -/
theorem byteAt_goal (i : Nat) : (e.cells.overlay start data).byteAt i =
    if start ≤ i ∧ i < start + data.size then data.byteAt (i - start) else e.cells.byteAt i :=
  Bytes.byteAt_overlay h.data_fits

theorem size_goal : (e.cells.overlay start data).size = c.size :=
  (Bytes.size_overlay h.data_fits).trans h.emulates.size

/-- The part of it for a block reaches to the block's end. -/
theorem part_stop (hb : b ∈ p.blocks) :
    b.start + ((e.cells.overlay start data).extract b.start b.stop).size = b.stop := by
  rw [Bytes.size_extract_of_le (h.size_goal ▸ (h.fits hb).inside)]
  exact Nat.add_sub_cancel' (Nat.le_add_right _ _)

theorem part_addressable (hb : b ∈ p.blocks) :
    b.start + ((e.cells.overlay start data).extract b.start b.stop).size ≤ addressSpace := by
  rw [h.part_stop hb]
  exact Nat.le_trans (h.fits hb).inside h.addressable

theorem goal_of_stays (hs : b.stays e.cells data start = true) (hb : b ∈ p.blocks)
    (hlo : b.start ≤ i) (hhi : i < b.stop) :
    (e.cells.overlay start data).byteAt i = e.cells.byteAt i := by
  simp only [Block.stays, Bool.and_eq_true, decide_eq_true_eq] at hs
  obtain ⟨⟨hstart, hstop⟩, hsame⟩ := hs
  have hcells : e.cells.byteAt i =
      Bytes.byteAt (e.cells.extract b.start b.stop) (i - b.start) := by
    rw [Bytes.byteAt_extract (h.block_inside hb) (by omega), Nat.add_sub_cancel' hlo]
  have hplace : b.start - start + (i - b.start) = i - start := by omega
  rw [hcells, Bytes.eq_of_same hsame, Bytes.byteAt_extract (by omega) (by omega),
    h.byteAt_goal, if_pos (by omega), hplace]

theorem writes_write (hop : op ∈ strategy.writes e start data p) :
    op.Writes (e.cells.overlay start data).byteAt := by
  cases strategy with
  | wipeByBiggestErases =>
    refine CellOperation.programs_write h.data_addressable (fun j hj => ?_) hop
    rw [h.byteAt_goal, if_pos (by omega), Nat.add_sub_cancel_left]
  | wipeIfChanges =>
    obtain ⟨b, hb, hop⟩ := List.mem_flatMap.mp hop
    have hb := (Plan.mem_changed hb).1
    have hstop := h.part_stop hb
    refine CellOperation.programs_write (h.part_addressable hb) (fun j hj => ?_) hop
    exact Bytes.byteAt_extract (h.size_goal ▸ (h.fits hb).inside) (by omega)

theorem writes_inside (hop : op ∈ strategy.writes e start data p) (hr : op.Reaches i) :
    p.start ≤ i ∧ i < p.stop := by
  cases strategy with
  | wipeByBiggestErases =>
    have hi := CellOperation.programs_inside h.data_addressable hop hr
    have hlo := h.covers.start_le
    have hhi := h.covers.le_stop
    omega
  | wipeIfChanges =>
    obtain ⟨b, hb, hop⟩ := List.mem_flatMap.mp hop
    have hb := (Plan.mem_changed hb).1
    have hi := CellOperation.programs_inside (h.part_addressable hb) hop hr
    rw [h.part_stop hb] at hi
    exact (h.covers.mem_iff i).mpr ⟨b, hb, hi⟩

/-- Erased bits take on what is programmed. -/
theorem effects_reached (hop : op ∈ strategy.writes e start data p) (hr : op.Reaches i)
    (he : CellOperation.effects (strategy.wipes e start data p) e.cells.byteAt i =
      Emulator.erased) :
    CellOperation.effects (strategy.script e start data p) e.cells.byteAt i =
      (e.cells.overlay start data).byteAt i := by
  rw [Strategy.script, CellOperation.effects_append,
    CellOperation.effects_writes (fun _ hop => h.writes_write hop) ⟨op, hop, hr⟩, he,
    Emulator.erased_and]

/-- When a write that erases every block is done, the data stands in its range and the rest of the
plan is erased. -/
theorem effects_biggest (hw : 0 < e.maxWrite) (i : Nat) :
    CellOperation.effects (Strategy.wipeByBiggestErases.script e start data p) e.cells.byteAt i =
      if start ≤ i ∧ i < start + data.size then data.byteAt (i - start)
      else if p.start ≤ i ∧ i < p.stop then Emulator.erased
      else e.cells.byteAt i := by
  have hlo := h.covers.start_le
  have hhi := h.covers.le_stop
  have herased (hp : p.start ≤ i ∧ i < p.stop) :
      CellOperation.effects (Strategy.wipeByBiggestErases.wipes e start data p) e.cells.byteAt i =
        Emulator.erased := by
    obtain ⟨b, hb, hi⟩ := (h.covers.mem_iff i).mp hp
    exact CellOperation.effects_erases hb hi
  by_cases hi : start ≤ i ∧ i < start + data.size
  · obtain ⟨op, hop, hr⟩ :=
      CellOperation.programs_reach data h.page_pos hw h.data_addressable hi.1 hi.2
    rw [h.effects_reached hop hr (herased (by omega)), h.byteAt_goal, if_pos hi, if_pos hi]
  · have hmiss : ∀ op ∈ Strategy.wipeByBiggestErases.writes e start data p, ¬op.Reaches i :=
      fun op hop hr => hi (CellOperation.programs_inside h.data_addressable hop hr)
    rw [Strategy.script, CellOperation.effects_append, CellOperation.effects_of_not_reaches hmiss,
      if_neg hi]
    by_cases hp : p.start ≤ i ∧ i < p.stop
    · rw [if_pos hp, herased hp]
    · rw [if_neg hp]
      apply CellOperation.effects_of_not_reaches
      intro op hop hr
      obtain ⟨b, hb, rfl⟩ := List.mem_map.mp hop
      exact hp ((h.covers.mem_iff i).mpr ⟨b, hb, hr⟩)

omit h in
/-- Reading first makes no difference to what is wiped. -/
theorem effects_wipes_changes :
    CellOperation.effects (Strategy.wipeIfChanges.wipes e start data p) e.cells.byteAt =
      CellOperation.effects ((p.changed e start data).map .ofBlock) e.cells.byteAt := by
  rw [Strategy.wipes, CellOperation.effects_append, CellOperation.effects_of_reads]

theorem effects_in_changed (hw : 0 < e.maxWrite) (hb : b ∈ p.changed e start data)
    (hlo : b.start ≤ i) (hhi : i < b.stop) :
    CellOperation.effects (Strategy.wipeIfChanges.script e start data p) e.cells.byteAt i =
      (e.cells.overlay start data).byteAt i := by
  have hmem := (Plan.mem_changed hb).1
  obtain ⟨op, hop, hreach⟩ := CellOperation.programs_reach
    ((e.cells.overlay start data).extract b.start b.stop) h.page_pos hw (h.part_addressable hmem)
    hlo (by rwa [h.part_stop hmem])
  apply h.effects_reached (List.mem_flatMap.mpr ⟨b, hb, hop⟩) hreach
  rw [effects_wipes_changes]
  exact CellOperation.effects_erases hb ⟨hlo, hhi⟩

theorem effects_outside_changed
    (hi : ¬∃ b ∈ p.changed e start data, b.start ≤ i ∧ i < b.stop) :
    CellOperation.effects (Strategy.wipeIfChanges.script e start data p) e.cells.byteAt i =
      e.cells.byteAt i := by
  have hmiss : ∀ op ∈ Strategy.wipeIfChanges.writes e start data p, ¬op.Reaches i := by
    intro op hop hreach
    obtain ⟨b, hb, hop⟩ := List.mem_flatMap.mp hop
    have hmem := (Plan.mem_changed hb).1
    have hin := CellOperation.programs_inside (h.part_addressable hmem) hop hreach
    rw [h.part_stop hmem] at hin
    exact hi ⟨b, hb, hin⟩
  have hkept : ∀ op ∈ (p.changed e start data).map CellOperation.ofBlock, ¬op.Reaches i := by
    intro op hop hreach
    obtain ⟨b, hb, rfl⟩ := List.mem_map.mp hop
    exact hi ⟨b, hb, hreach⟩
  rw [Strategy.script, CellOperation.effects_append, CellOperation.effects_of_not_reaches hmiss,
    effects_wipes_changes, CellOperation.effects_of_not_reaches hkept]

/-- A byte outside the blocks that change is right already: it lies outside the range, or in a
block that stays. -/
theorem goal_outside_changed (hr : 0 < e.maxRead)
    (hi : ¬∃ b ∈ p.changed e start data, b.start ≤ i ∧ i < b.stop) :
    (e.cells.overlay start data).byteAt i = e.cells.byteAt i := by
  by_cases hin : start ≤ i ∧ i < start + data.size
  · have hlo := h.covers.start_le
    have hhi := h.covers.le_stop
    obtain ⟨b, hb, hib⟩ := (h.covers.mem_iff i).mp ⟨by omega, by omega⟩
    rcases Plan.changed_or_stays hb hr with hc | hs
    · exact absurd ⟨b, hc, hib⟩ hi
    · exact h.goal_of_stays hs hb hib.1 hib.2
  · rw [h.byteAt_goal, if_neg hin]

/-- When a write that erases only what changes is done, the data stands in its range and all else
is as before. -/
theorem effects_changes (hr : 0 < e.maxRead) (hw : 0 < e.maxWrite) (i : Nat) :
    CellOperation.effects (Strategy.wipeIfChanges.script e start data p) e.cells.byteAt i =
      (e.cells.overlay start data).byteAt i := by
  by_cases hi : ∃ b ∈ p.changed e start data, b.start ≤ i ∧ i < b.stop
  · obtain ⟨b, hb, hlo, hhi⟩ := hi
    exact h.effects_in_changed hw hb hlo hhi
  · rw [h.effects_outside_changed hi, h.goal_outside_changed hr hi]

end Writable
end NorFlash
