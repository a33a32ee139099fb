import NorFlash.Proofs.Covering

namespace NorFlash

variable {regions : List Region} {r : Region} {b : Block} {addr start stop len cursor : Nat}

/-- A block of the table is found from any address in it. -/
theorem Block.Within.blockHolding? (hw : b.Within regions) (hlo : b.start ≤ addr)
    (hhi : addr < b.stop) (ha : addr < addressSpace) :
    b.region.blockHolding? addr = some b := by
  have hstart := hw.start_eq
  have hin : addr < b.region.stop := Nat.lt_of_lt_of_le hhi hw.stop_le
  have hindex : (addr - b.region.start) / b.region.blockSize = b.index := by
    unfold Block.stop Block.size at hhi
    apply Nat.div_eq_of_lt_le
    · omega
    · rw [Nat.add_mul, Nat.one_mul]
      omega
  have hcond : (b.region.active && decide (b.region.start ≤ addr) &&
      decide (addr < b.region.stop)) = true := by
    rw [hw.active, decide_eq_true (by omega), decide_eq_true hin]
    rfl
  rw [Region.blockHolding?, if_pos ha, Region.blockIndexAt?, if_pos hcond, hindex]
  rfl

theorem Block.Within.blockFrom? (hw : b.Within regions) : b.region.blockFrom? b.start = some b := by
  have ha : b.start < addressSpace := Nat.mod_lt _ (by decide)
  have hh := hw.blockHolding? (Nat.le_refl _) hw.start_lt_stop ha
  rw [Region.blockHolding?, if_pos ha] at hh
  obtain ⟨i, hi, hb⟩ := Option.map_eq_some_iff.mp hh
  have hib : i = b.index := congrArg Block.index hb
  have hplace : (b.region.start + i * b.region.blockSize == b.start) = true := by
    rw [hib, hw.start_eq]
    exact beq_self_eq_true _
  rw [Region.blockFrom?, if_pos ha, Region.blockIndexStartingAt?, hi, Option.filter_some,
    if_pos hplace]
  exact congrArg some hb

/-- An active region has a block for every address that it covers. -/
theorem Region.exists_blockHolding? (hact : r.active = true) (hlo : r.start ≤ addr)
    (hhi : addr < r.stop) (ha : addr < addressSpace) : ∃ b, r.blockHolding? addr = some b := by
  have hcond : (r.active && decide (r.start ≤ addr) && decide (addr < r.stop)) = true := by
    rw [hact, decide_eq_true hlo, decide_eq_true hhi]
    rfl
  rw [blockHolding?, if_pos ha, blockIndexAt?, if_pos hcond]
  exact ⟨_, rfl⟩

namespace Plan

theorem exists_best? {α : Type} (beats : α → α → Bool) {xs : List α} {x : α} (h : x ∈ xs) :
    ∃ b, best? beats xs = some b := by
  cases xs with
  | nil => cases h
  | cons y ys => exact ⟨_, rfl⟩

theorem exists_selectHead (stop : Nat) (hr : r ∈ regions) (hact : r.active = true)
    (hlo : r.start ≤ start) (hhi : start < r.stop) (ha : start < addressSpace) :
    ∃ b, selectHead regions start stop = some b := by
  obtain ⟨b, hb⟩ := Region.exists_blockHolding? hact hlo hhi ha
  exact exists_best? _ (List.mem_filterMap.mpr ⟨r, hr, hb⟩)

theorem mem_tailCandidates_of_within (hw : b.Within regions) :
    b ∈ tailCandidates regions b.start :=
  List.mem_filterMap.mpr ⟨b.region, hw.region, hw.blockFrom?⟩

/-- Where there is no last block to take, no block of the table starts. -/
theorem start_ne_of_selectTail_none (h : selectTail regions cursor = none) (hw : b.Within regions) :
    b.start ≠ cursor := by
  rintro rfl
  obtain ⟨c, hc⟩ := exists_best? (fun y b => y.size < b.size)
    (mem_tailCandidates_of_within hw)
  rw [selectTail, hc] at h
  cases h

/-- What ends the middle phase: the end of the range, or a cursor from which every block leads
past it. -/
theorem middle_ends (regions : List Region) (stop cursor : Nat) :
    stop ≤ cursorAfter cursor (middleBlocks regions stop cursor) ∨
      ∀ b ∈ tailCandidates regions (cursorAfter cursor (middleBlocks regions stop cursor)),
        stop < b.stop := by
  fun_induction middleBlocks regions stop cursor with
  | case1 cursor hlt b hb ih =>
    rw [cursorAfter_cons]
    exact ih
  | case2 cursor hlt hn =>
    right
    intro b hb
    by_contra hle
    have hmem : b ∈ middleCandidates regions cursor stop :=
      List.mem_filter.mpr ⟨hb, by simpa using hle⟩
    obtain ⟨c, hc⟩ := exists_best? (fun y b => b.size < y.size) hmem
    rw [selectMiddle, hc] at hn
    cases hn
  | case3 cursor hge => exact .inl (Nat.le_of_not_lt hge)

/-- The range is left at a place from which planning cannot go on: a block of the table ends inside
it, and none starts there. -/
structure DeadEnd (regions : List Region) (start stop : Nat) (b : Block) : Prop where
  within : b.Within regions
  begun : start < b.stop
  short : b.stop < stop
  stuck : ∀ c : Block, c.Within regions → c.start ≠ b.stop

variable {bs : List Block} {e : Error}

theorem Reaches.start_lt_cursor (h : Reaches regions start stop bs cursor) : start < cursor := by
  obtain ⟨a, ha, _, hin⟩ := h.first
  obtain ⟨b, hb, rfl⟩ := h.last
  obtain ⟨rest, rfl⟩ := List.head?_eq_some_iff.mp ha
  have hordered := List.pairwise_cons.mp (pairwise_of_chained h.within h.chained)
  rcases List.mem_cons.mp (List.mem_of_getLast? hb) with rfl | hmem
  · exact hin
  · have hafter := hordered.1 b hmem
    have hlt := (h.within b (List.mem_cons_of_mem a hmem)).start_lt_stop
    omega

/-- The phases of a range whose start lies in a region end well, or at a dead end which the error
names. -/
theorem dead_end_of_phases (hr : r ∈ regions) (hact : r.active = true) (hlo : r.start ≤ start)
    (hhi : start < r.stop) (hs : start < stop) (hb : stop ≤ addressSpace)
    (h : phases regions start stop = .error e) :
    ∃ b, DeadEnd regions start stop b ∧ e = .noCoverage b.stop := by
  obtain ⟨head, hhead⟩ := exists_selectHead stop hr hact hlo hhi (by omega)
  obtain ⟨hw, hhlo, hhhi⟩ := selectHead_some hhead
  obtain ⟨c, hc⟩ := (Reaches.single hw hhlo hhhi hs).middle
  rw [List.singleton_append] at hc
  have hcursor := hc.cursorAfter_eq
  have hends := middle_ends regions stop head.stop
  have hsame : cursorAfter start (head :: middleBlocks regions stop head.stop) =
      cursorAfter head.stop (middleBlocks regions stop head.stop) := cursorAfter_cons
  rw [← hsame, hcursor] at hends
  simp only [phases, hhead, hcursor] at h
  split at h
  case isTrue => cases h
  case isFalse hshort =>
    replace hends := hends.resolve_left hshort
    split at h
    case h_1 hnone =>
      cases h
      obtain ⟨b, hlast, hstop⟩ := hc.last
      have hbegun := hc.start_lt_cursor
      refine ⟨b, ⟨hc.within b (List.mem_of_getLast? hlast), by omega, by omega, ?_⟩, ?_⟩
      · intro c' hc'
        rw [hstop]
        exact start_ne_of_selectTail_none hnone hc'
      · rw [coverageError, Nat.mod_eq_of_lt (by omega), hstop]
    case h_2 tail htail =>
      -- a last block always reaches the end, or the middle phase would have taken it
      have hover := hends tail (mem_of_best? htail)
      rw [if_neg (by omega)] at h
      cases h

/-- Where no single block is found, none holds the range. -/
theorem encloses_of_selectEnclosing_none (hs : start < stop) (ha : start < addressSpace)
    (h : selectEnclosing regions start stop = none) (hw : b.Within regions) :
    b.encloses start stop = false := by
  cases he : b.encloses start stop with
  | false => rfl
  | true =>
    have hends := he
    simp only [Block.encloses, Bool.and_eq_true, decide_eq_true_eq] at hends
    have hhead : b ∈ headCandidates regions start :=
      List.mem_filterMap.mpr ⟨b.region, hw.region, hw.blockHolding? hends.1 (by omega) ha⟩
    have hmem : b ∈ (headCandidates regions start).filter (·.encloses start stop) :=
      List.mem_filter.mpr ⟨hhead, he⟩
    obtain ⟨c, hc⟩ := exists_best? (fun y b => y.size < b.size) hmem
    rw [selectEnclosing, hc] at h
    cases h

/-- Covering a range that one region covers fails only at a dead end, and only where no single
block holds the range. -/
theorem dead_end_of_coveringBlocks (hr : r ∈ regions) (hact : r.active = true)
    (hlo : r.start ≤ start) (hhi : start < r.stop) (hs : start < stop) (hb : stop ≤ addressSpace)
    (h : coveringBlocks regions start stop = .error e) :
    ∃ b, DeadEnd regions start stop b ∧
      (∀ c : Block, c.Within regions → c.encloses start stop = false) ∧
        e = .noCoverage b.stop := by
  unfold coveringBlocks at h
  split at h
  case h_1 => cases h
  case h_2 e' hp =>
    split at h
    case h_1 => cases h
    case h_2 hnone =>
      cases h
      obtain ⟨b, hdead, he⟩ := dead_end_of_phases hr hact hlo hhi hs hb hp
      have ha : start < addressSpace := by omega
      exact ⟨b, hdead, fun c hc => encloses_of_selectEnclosing_none hs ha hnone hc, he⟩

/-- Where overhanging is allowed a plan is what covers the range. -/
theorem make_of_coveringBlocks (hlen : 0 < len) :
    make regions start len false = (coveringBlocks regions start (start + len)).map Plan.mk := by
  have hne : ¬(len == 0) = true := by
    simp only [beq_iff_eq]
    omega
  rw [make, if_neg hne]
  cases coveringBlocks regions start (start + len) <;> rfl

/-- A range that one region covers has a plan whatever the other regions are, unless planning comes
to a dead end and no single block holds the range. -/
theorem make_or_dead_end (hr : r ∈ regions) (hact : r.active = true) (hlo : r.start ≤ start)
    (hhi : start + len ≤ r.stop) (hlen : 0 < len) (hb : start + len ≤ addressSpace) :
    (∃ p, make regions start len false = .ok p) ∨
      ∃ b, DeadEnd regions start (start + len) b ∧
        (∀ c : Block, c.Within regions → c.encloses start (start + len) = false) ∧
          make regions start len false = .error (.noCoverage b.stop) := by
  rw [make_of_coveringBlocks hlen]
  cases hcover : coveringBlocks regions start (start + len) with
  | ok bs => exact .inl ⟨⟨bs⟩, rfl⟩
  | error e =>
    obtain ⟨b, hdead, hnone, rfl⟩ :=
      dead_end_of_coveringBlocks hr hact hlo (by omega) (by omega) hb hcover
    exact .inr ⟨b, hdead, hnone, rfl⟩

/-- Sectors that end inside a larger region whose blocks do not start there: the range is left at
the end of the last sector. -/
theorem make_or_dead_end_boot_sectors :
    (∃ p, make [⟨0, 0x1000, 2, .erase20⟩, ⟨0, 0x10000, 2, .eraseD8⟩] 0x1000 0x10000 false = .ok p) ∨
      ∃ b, DeadEnd [⟨0, 0x1000, 2, .erase20⟩, ⟨0, 0x10000, 2, .eraseD8⟩] 0x1000 0x11000 b ∧
        (∀ c : Block, c.Within [⟨0, 0x1000, 2, .erase20⟩, ⟨0, 0x10000, 2, .eraseD8⟩] →
          c.encloses 0x1000 0x11000 = false) ∧
          make [⟨0, 0x1000, 2, .erase20⟩, ⟨0, 0x10000, 2, .eraseD8⟩] 0x1000 0x10000 false =
            .error (.noCoverage b.stop) :=
  make_or_dead_end (r := ⟨0, 0x10000, 2, .eraseD8⟩) (by simp) (by decide) (by decide) (by decide)
    (by decide) (by decide)

/-- The larger region alone covers the range, and with the sectors beside it there is no plan. -/
theorem make_refuses_covered :
    let sectors : Region := ⟨0, 0x1000, 2, .erase20⟩
    let blocks : Region := ⟨0, 0x10000, 2, .eraseD8⟩
    (blocks.active = true ∧ blocks.start ≤ 0x1000 ∧ 0x1000 + 0x10000 ≤ blocks.stop) ∧
      (∃ p, make [blocks] 0x1000 0x10000 false = .ok p) ∧
        make [sectors, blocks] 0x1000 0x10000 false = .error (.noCoverage 0x2000) := by
  refine ⟨by decide, ⟨⟨[⟨⟨0, 0x10000, 2, .eraseD8⟩, 0⟩, ⟨⟨0, 0x10000, 2, .eraseD8⟩, 1⟩]⟩, ?_⟩, ?_⟩
  · cbv
  · cbv

/-- A table has no dead end where the blocks of one region start wherever a block ends inside the
range. -/
theorem make_in_step (hr : r ∈ regions) (hact : r.active = true) (hlo : r.start ≤ start)
    (hhi : start + len ≤ r.stop) (hlen : 0 < len) (hb : start + len ≤ addressSpace)
    (hstep : ∀ b : Block, b.Within regions → start < b.stop → b.stop < start + len →
      r.blockSize ∣ b.stop - r.start) :
    ∃ p, make regions start len false = .ok p := by
  rw [make_of_coveringBlocks hlen]
  cases hcover : coveringBlocks regions start (start + len) with
  | ok bs => exact ⟨⟨bs⟩, rfl⟩
  | error e =>
    obtain ⟨b, hdead, _, _⟩ :=
      dead_end_of_coveringBlocks hr hact hlo (by omega) (by omega) hb hcover
    have hshort := hdead.short
    have hbegun := hdead.begun
    obtain ⟨k, hk⟩ := hstep b hdead.within hbegun hshort
    have hstart : b.stop = r.start + k * r.blockSize := by
      rw [Nat.mul_comm]
      omega
    -- the covering region has a block there
    have hindex : k < r.blockCount := by
      have hin : k * r.blockSize < r.blockCount * r.blockSize := by
        unfold Region.stop at hhi
        rw [Nat.mul_comm r.blockCount]
        omega
      exact Nat.lt_of_mul_lt_mul_right hin
    have hw : Block.Within regions ⟨r, k⟩ := ⟨hr, hact, hindex, by dsimp only; omega⟩
    exact absurd (hw.start_eq.trans hstart.symm) (hdead.stuck ⟨r, k⟩ hw)

end Plan
end NorFlash
