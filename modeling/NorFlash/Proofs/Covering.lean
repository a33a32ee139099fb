import Mathlib.Data.List.Chain
import NorFlash.Erase.Planner
import NorFlash.Numeric.Total

namespace NorFlash

/-- A block that is really there: one of the blocks of an active region of the table, at an address
that fits the bus. -/
structure Block.Within (regions : List Region) (b : Block) : Prop where
  region : b.region ∈ regions
  active : b.region.active = true
  index : b.index < b.region.blockCount
  fits : b.region.start + b.index * b.region.blockSize < addressSpace

variable {regions : List Region} {r : Region} {b : Block} {addr start stop len cursor : Nat}

theorem Region.active_iff : r.active = true ↔ r.blockSize ≠ 0 ∧ r.blockCount ≠ 0 := by
  simp [Region.active]

theorem Block.Within.start_eq (h : b.Within regions) :
    b.start = b.region.start + b.index * b.region.blockSize :=
  Nat.mod_eq_of_lt h.fits

theorem Region.blockSize_pos (h : r.active = true) : 0 < r.blockSize :=
  Nat.pos_of_ne_zero (active_iff.mp h).1

theorem Region.blockCount_pos (h : r.active = true) : 0 < r.blockCount :=
  Nat.pos_of_ne_zero (active_iff.mp h).2

theorem Block.Within.size_pos (h : b.Within regions) : 0 < b.size := Region.blockSize_pos h.active

theorem Block.Within.start_lt_stop (h : b.Within regions) : b.start < b.stop :=
  Nat.lt_add_of_pos_right h.size_pos

theorem Block.Within.stop_le (h : b.Within regions) : b.stop ≤ b.region.stop := by
  have hi : (b.index + 1) * b.region.blockSize ≤ b.region.blockCount * b.region.blockSize :=
    Nat.mul_le_mul_right _ h.index
  rw [Nat.add_mul, Nat.one_mul, Nat.mul_comm b.region.blockCount] at hi
  unfold Block.stop Block.size Region.stop
  rw [h.start_eq]
  omega

/-- The index found for an address is that of a block around it. -/
theorem Region.blockIndexAt?_some {i : Nat} (h : r.blockIndexAt? addr = some i) :
    r.active = true ∧ i < r.blockCount ∧ r.start + i * r.blockSize ≤ addr ∧
      addr < r.start + i * r.blockSize + r.blockSize := by
  unfold blockIndexAt? at h
  split at h
  case isFalse => cases h
  case isTrue hin =>
    cases h
    simp only [Bool.and_eq_true, decide_eq_true_eq] at hin
    obtain ⟨⟨hact, hlo⟩, hhi⟩ := hin
    unfold Region.stop at hhi
    have hpos := blockSize_pos hact
    have hdiv := Nat.div_mul_le_self (addr - r.start) r.blockSize
    have hmod := Nat.lt_div_mul_add hpos (a := addr - r.start)
    refine ⟨hact, ?_, by omega, by omega⟩
    rw [Nat.div_lt_iff_lt_mul hpos, Nat.mul_comm]
    omega

theorem Region.blockHolding?_some (hr : r ∈ regions) (h : r.blockHolding? addr = some b) :
    b.Within regions ∧ b.start ≤ addr ∧ addr < b.stop := by
  unfold blockHolding? at h
  split at h
  case isFalse => cases h
  case isTrue hlt =>
    obtain ⟨i, hi, rfl⟩ := Option.map_eq_some_iff.mp h
    obtain ⟨hact, hindex, hlo, hhi⟩ := blockIndexAt?_some hi
    have hw : Block.Within regions ⟨r, i⟩ := ⟨hr, hact, hindex, Nat.lt_of_le_of_lt hlo hlt⟩
    have hstart : Block.start ⟨r, i⟩ = r.start + i * r.blockSize := hw.start_eq
    refine ⟨hw, ?_, ?_⟩
    · rw [hstart]
      exact hlo
    · rw [Block.stop, hstart]
      exact hhi

theorem Region.blockHolding?_of_blockFrom? (h : r.blockFrom? addr = some b) :
    r.blockHolding? addr = some b ∧ r.start + b.index * r.blockSize = addr ∧ b.region = r := by
  simp only [blockFrom?, blockIndexStartingAt?] at h
  simp only [blockHolding?]
  split at h
  case isFalse => simp at h
  case isTrue hlt =>
    rw [if_pos hlt]
    cases hi : r.blockIndexAt? addr with
    | none => simp [hi] at h
    | some i =>
      simp only [hi, Option.filter_some, beq_iff_eq] at h
      split at h
      case isFalse => simp at h
      case isTrue he =>
        simp only [Option.map_some, Option.some.injEq] at h
        subst h
        exact ⟨rfl, he, rfl⟩

theorem Region.blockFrom?_some (hr : r ∈ regions) (h : r.blockFrom? addr = some b) :
    b.Within regions ∧ b.start = addr := by
  obtain ⟨hh, he, hb⟩ := blockHolding?_of_blockFrom? h
  obtain ⟨hw, _, _⟩ := blockHolding?_some hr hh
  refine ⟨hw, ?_⟩
  rw [hw.start_eq, hb]
  exact he

namespace Plan

theorem mem_headCandidates (h : b ∈ headCandidates regions addr) :
    b.Within regions ∧ b.start ≤ addr ∧ addr < b.stop := by
  obtain ⟨r, hr, hb⟩ := List.mem_filterMap.mp h
  exact Region.blockHolding?_some hr hb

theorem mem_tailCandidates (h : b ∈ tailCandidates regions cursor) :
    b.Within regions ∧ b.start = cursor := by
  obtain ⟨r, hr, hb⟩ := List.mem_filterMap.mp h
  exact Region.blockFrom?_some hr hb

theorem selectHead_some (h : selectHead regions start stop = some b) :
    b.Within regions ∧ b.start ≤ start ∧ start < b.stop :=
  mem_headCandidates (mem_of_best? h)

theorem selectMiddle_some (h : selectMiddle regions cursor stop = some b) :
    b.Within regions ∧ b.start = cursor :=
  mem_tailCandidates (List.mem_filter.mp (mem_of_best? h)).1

theorem selectTail_some (h : selectTail regions cursor = some b) :
    b.Within regions ∧ b.start = cursor :=
  mem_tailCandidates (mem_of_best? h)

theorem selectEnclosing_some (h : selectEnclosing regions start stop = some b) :
    b.Within regions ∧ b.start ≤ start ∧ start < b.stop ∧ stop ≤ b.stop := by
  obtain ⟨hb, he⟩ := List.mem_filter.mp (mem_of_best? h)
  obtain ⟨hw, hlo, hhi⟩ := mem_headCandidates hb
  simp only [Block.encloses, Bool.and_eq_true, decide_eq_true_eq] at he
  exact ⟨hw, hlo, hhi, he.2⟩

/-- The cursor invariant: blocks of the table, end to end, the first around `start`, all of them
begun before `stop`, and the cursor at the end of the last. -/
structure Reaches (regions : List Region) (start stop : Nat) (bs : List Block) (cursor : Nat) :
    Prop where
  within : ∀ b ∈ bs, b.Within regions
  early : ∀ b ∈ bs, b.start < stop
  chained : bs.IsChain fun a b => a.stop = b.start
  first : ∃ b, bs.head? = some b ∧ b.start ≤ start ∧ start < b.stop
  last : ∃ b, bs.getLast? = some b ∧ b.stop = cursor

variable {bs : List Block}

theorem Reaches.single (hb : b.Within regions) (hlo : b.start ≤ start) (hhi : start < b.stop)
    (hs : start < stop) : Reaches regions start stop [b] b.stop := by
  refine ⟨?_, ?_, List.isChain_singleton b, ⟨b, rfl, hlo, hhi⟩, ⟨b, rfl, rfl⟩⟩
  · intro c hc
    rw [List.mem_singleton.mp hc]
    exact hb
  · intro c hc
    rw [List.mem_singleton.mp hc]
    omega

theorem Reaches.snoc (h : Reaches regions start stop bs cursor) (hb : b.Within regions)
    (hc : b.start = cursor) (hs : cursor < stop) :
    Reaches regions start stop (bs ++ [b]) b.stop := by
  obtain ⟨c, hlast, hstop⟩ := h.last
  obtain ⟨d, hfirst, hlo, hhi⟩ := h.first
  refine ⟨?_, ?_, ?_, ⟨d, ?_, hlo, hhi⟩, ⟨b, by simp, rfl⟩⟩
  · intro x hx
    rcases List.mem_append.mp hx with hx | hx
    · exact h.within x hx
    · rw [List.mem_singleton.mp hx]
      exact hb
  · intro x hx
    rcases List.mem_append.mp hx with hx | hx
    · exact h.early x hx
    · rw [List.mem_singleton.mp hx]
      omega
  · apply List.isChain_append.mpr
    refine ⟨h.chained, List.isChain_singleton b, ?_⟩
    intro x hx y hy
    rw [hlast, Option.mem_some_iff] at hx
    simp only [List.head?_cons, Option.mem_some_iff] at hy
    rw [← hx, ← hy]
    omega
  · rw [List.head?_append, hfirst, Option.some_or]

theorem cursorAfter_cons {bs : List Block} :
    cursorAfter cursor (b :: bs) = cursorAfter b.stop bs := by
  unfold cursorAfter
  rw [List.getLast?_cons]
  cases bs.getLast? <;> rfl

theorem Reaches.cursorAfter_eq (h : Reaches regions start stop bs cursor) :
    cursorAfter start bs = cursor := by
  obtain ⟨b, hlast, hstop⟩ := h.last
  simp [cursorAfter, hlast, hstop]

/-- Each round of the middle phase keeps the cursor invariant, so the whole phase does. -/
theorem Reaches.middle (h : Reaches regions start stop bs cursor) :
    ∃ c, Reaches regions start stop (bs ++ middleBlocks regions stop cursor) c := by
  fun_induction middleBlocks regions stop cursor generalizing bs with
  | case1 cursor hlt b hb ih =>
    obtain ⟨hw, hs⟩ := selectMiddle_some hb
    obtain ⟨c, hc⟩ := ih (h.snoc hw hs hlt)
    exact ⟨c, by simpa using hc⟩
  | case2 cursor hlt hn => exact ⟨cursor, by simpa using h⟩
  | case3 cursor hge => exact ⟨cursor, by simpa using h⟩

theorem phases_reaches (hs : start < stop) (h : phases regions start stop = .ok bs) :
    ∃ c, Reaches regions start stop bs c ∧ stop ≤ c := by
  unfold phases at h
  split at h
  case h_1 => simp at h
  case h_2 head hh =>
    obtain ⟨hw, hlo, hhi⟩ := selectHead_some hh
    obtain ⟨c, hc⟩ := (Reaches.single hw hlo hhi hs).middle
    rw [List.singleton_append] at hc
    dsimp only at h
    rw [hc.cursorAfter_eq] at h
    split at h
    case isTrue hle =>
      cases h
      exact ⟨c, hc, hle⟩
    case isFalse hlt =>
      split at h
      case h_1 => simp at h
      case h_2 tail ht =>
        obtain ⟨hwt, hst⟩ := selectTail_some ht
        split at h
        case isTrue => simp at h
        case isFalse hge =>
          cases h
          exact ⟨tail.stop, hc.snoc hwt hst (by omega), by omega⟩

theorem coveringBlocks_reaches (hs : start < stop)
    (h : coveringBlocks regions start stop = .ok bs) :
    ∃ c, Reaches regions start stop bs c ∧ stop ≤ c := by
  unfold coveringBlocks at h
  split at h
  case h_1 bs' hp =>
    cases h
    exact phases_reaches hs hp
  case h_2 =>
    split at h
    case h_2 => simp at h
    case h_1 b hb =>
      cases h
      obtain ⟨hw, hlo, hhi, hle⟩ := selectEnclosing_some hb
      exact ⟨b.stop, Reaches.single hw hlo hhi hs, hle⟩

/-- What a plan for `[start, stop)` is: blocks of the table, end to end, the first of them around
the start and the last around the end. -/
structure Covers (regions : List Region) (start stop : Nat) (p : Plan) : Prop where
  within : ∀ b ∈ p.blocks, b.Within regions
  chained : p.blocks.IsChain fun a b => a.stop = b.start
  first : ∃ b, p.blocks.head? = some b ∧ b.start ≤ start ∧ start < b.stop
  last : ∃ b, p.blocks.getLast? = some b ∧ b.start < stop ∧ stop ≤ b.stop

variable {p : Plan} {exact : Bool}

theorem Reaches.covers (h : Reaches regions start stop bs cursor) (hle : stop ≤ cursor) :
    Covers regions start stop ⟨bs⟩ := by
  obtain ⟨b, hb, hc⟩ := h.last
  exact ⟨h.within, h.chained, h.first,
    ⟨b, hb, h.early b (List.mem_of_getLast? hb), by omega⟩⟩

theorem requireExact_ok {p' : Plan} (h : requireExact start stop p = .ok p') :
    p' = p ∧ p.start = start ∧ p.stop = stop := by
  unfold requireExact at h
  split at h
  case isFalse => simp at h
  case isTrue he =>
    simp only [Bool.and_eq_true, beq_iff_eq] at he
    cases h
    exact ⟨rfl, he.1, he.2⟩

theorem make_ok (h : make regions start len exact = .ok p) :
    0 < len ∧ coveringBlocks regions start (start + len) = .ok p.blocks ∧
      (exact = true → p.start = start ∧ p.stop = start + len) := by
  unfold make at h
  split at h
  case isTrue => simp at h
  case isFalse hlen =>
    have hpos : 0 < len := Nat.pos_of_ne_zero (by simpa using hlen)
    cases hb : coveringBlocks regions start (start + len) with
    | error e => simp [hb, bind, Except.bind] at h
    | ok bs =>
      simp only [hb, bind, Except.bind] at h
      split at h
      case isTrue hex =>
        obtain ⟨rfl, hstart, hstop⟩ := requireExact_ok h
        exact ⟨hpos, rfl, fun _ => ⟨hstart, hstop⟩⟩
      case isFalse hex =>
        cases h
        exact ⟨hpos, rfl, fun he => absurd he hex⟩

/-- There is no plan for nothing. -/
theorem len_ne_zero (h : make regions start len exact = .ok p) : ¬(len == 0) = true := by
  have hpos := (make_ok h).1
  simp only [beq_iff_eq]
  omega

/-- End to end means in order of address, and so no address lies in two blocks. -/
theorem pairwise_of_chained (hw : ∀ b ∈ bs, b.Within regions)
    (hc : bs.IsChain fun a b => a.stop = b.start) : bs.Pairwise fun a b => a.stop ≤ b.start := by
  induction bs with
  | nil => exact .nil
  | cons a bs ih =>
    have htail := ih (fun b hb => hw b (List.mem_cons_of_mem a hb)) hc.tail
    refine List.pairwise_cons.mpr ⟨?_, htail⟩
    intro b hb
    cases bs with
    | nil => simp at hb
    | cons c bs =>
      have hac : a.stop = c.start := (List.isChain_cons_cons.mp hc).1
      have hlt := (hw c (by simp)).start_lt_stop
      rcases List.mem_cons.mp hb with rfl | hb
      · omega
      · have hcb := (List.pairwise_cons.mp htail).1 b hb
        omega

/-- Every address between the ends of a chain lies in one of its blocks. -/
theorem exists_block_of_chained (hc : bs.IsChain fun a b => a.stop = b.start) {i : Nat}
    {lo hi : Block} (hlo : bs.head? = some lo) (hhi : bs.getLast? = some hi)
    (h₁ : lo.start ≤ i) (h₂ : i < hi.stop) : ∃ b ∈ bs, b.start ≤ i ∧ i < b.stop := by
  induction bs generalizing lo with
  | nil => simp at hlo
  | cons a bs ih =>
    simp only [List.head?_cons, Option.some.injEq] at hlo
    subst hlo
    by_cases hin : i < a.stop
    · exact ⟨a, List.mem_cons_self, h₁, hin⟩
    · cases bs with
      | nil =>
        simp only [List.getLast?_singleton, Option.some.injEq] at hhi
        subst hhi
        contradiction
      | cons c bs =>
        have hac : a.stop = c.start := (List.isChain_cons_cons.mp hc).1
        obtain ⟨b, hb, hin⟩ := ih hc.tail rfl (by simpa using hhi) (by omega)
        exact ⟨b, List.mem_cons_of_mem a hb, hin⟩

theorem Covers.start_eq (h : Covers regions start stop p) :
    ∃ b, p.blocks.head? = some b ∧ p.start = b.start := by
  obtain ⟨b, hb, _⟩ := h.first
  exact ⟨b, hb, by simp [Plan.start, hb]⟩

theorem Covers.stop_eq (h : Covers regions start stop p) :
    ∃ b, p.blocks.getLast? = some b ∧ p.stop = b.stop := by
  obtain ⟨b, hb, _⟩ := h.last
  exact ⟨b, hb, by simp [Plan.stop, hb]⟩

theorem Covers.start_le (h : Covers regions start stop p) : p.start ≤ start := by
  obtain ⟨b, hb, hlo, _⟩ := h.first
  simpa [Plan.start, hb] using hlo

theorem Covers.le_stop (h : Covers regions start stop p) : stop ≤ p.stop := by
  obtain ⟨b, hb, _, hhi⟩ := h.last
  simpa [Plan.stop, hb] using hhi

theorem Covers.eq_first_or_after {a : Block} (h : Covers regions start stop p)
    (ha : p.blocks.head? = some a) (hb : b ∈ p.blocks) : b = a ∨ a.stop ≤ b.start := by
  obtain ⟨as, has⟩ := List.head?_eq_some_iff.mp ha
  have hp := pairwise_of_chained h.within h.chained
  rw [has] at hb hp
  rcases List.mem_cons.mp hb with rfl | hb
  · exact .inl rfl
  · exact .inr ((List.pairwise_cons.mp hp).1 b hb)

theorem Covers.eq_last_or_before {z : Block} (h : Covers regions start stop p)
    (hz : p.blocks.getLast? = some z) (hb : b ∈ p.blocks) : b = z ∨ b.stop ≤ z.start := by
  obtain ⟨as, has⟩ := List.getLast?_eq_some_iff.mp hz
  have hp := pairwise_of_chained h.within h.chained
  rw [has] at hb hp
  rcases List.mem_append.mp hb with hb | hb
  · exact .inr ((List.pairwise_append.mp hp).2.2 b hb z (by simp))
  · exact .inl (List.mem_singleton.mp hb)

theorem Covers.start_le_of_mem (h : Covers regions start stop p) (hb : b ∈ p.blocks) :
    p.start ≤ b.start := by
  obtain ⟨a, ha, hstart⟩ := h.start_eq
  have hlt := (h.within a (List.mem_of_mem_head? ha)).start_lt_stop
  rcases h.eq_first_or_after ha hb with rfl | hab <;> omega

theorem Covers.stop_le_of_mem (h : Covers regions start stop p) (hb : b ∈ p.blocks) :
    b.stop ≤ p.stop := by
  obtain ⟨z, hz, hstop⟩ := h.stop_eq
  have hlt := (h.within z (List.mem_of_getLast? hz)).start_lt_stop
  rcases h.eq_last_or_before hz hb with rfl | hbz <;> omega

theorem Covers.start_lt_stop (h : Covers regions start stop p) : p.start < p.stop := by
  obtain ⟨a, ha, _⟩ := h.first
  have hmem := List.mem_of_mem_head? ha
  have hlt := (h.within a hmem).start_lt_stop
  have hlo := h.start_le_of_mem hmem
  have hhi := h.stop_le_of_mem hmem
  omega

/-- Blocks that lie end to end are as long as all of them together. -/
theorem total_sizes (hc : bs.IsChain fun a b => a.stop = b.start) {first last : Block}
    (hfirst : bs.head? = some first) (hlast : bs.getLast? = some last) :
    first.start + total (bs.map Block.size) = last.stop := by
  induction bs generalizing first with
  | nil => cases hfirst
  | cons b bs ih =>
    cases hfirst
    cases bs with
    | nil =>
      cases hlast
      simp [Block.stop]
    | cons b' bs =>
      have hnext := (List.isChain_cons_cons.mp hc).1
      have hrest := ih (List.isChain_cons_cons.mp hc).2 rfl (by simpa using hlast)
      rw [List.map_cons, total_cons, ← hrest, ← hnext, Block.stop]
      omega

theorem Covers.erasedBytes_eq (h : Covers regions start stop p) :
    p.erasedBytes = total (p.blocks.map Block.size) := by
  obtain ⟨first, hfirst, hstart⟩ := h.start_eq
  obtain ⟨last, hlast, hstop⟩ := h.stop_eq
  have htotal := total_sizes h.chained hfirst hlast
  rw [Plan.erasedBytes, hstart, hstop]
  omega

theorem Covers.nodup (h : Covers regions start stop p) : p.blocks.Nodup := by
  refine (pairwise_of_chained h.within h.chained).imp_of_mem fun {a _} ha _ hle => ?_
  rintro rfl
  have hlt := (h.within a ha).start_lt_stop
  omega

/-- The addresses between the ends of a plan are those of its blocks. -/
theorem Covers.mem_iff (h : Covers regions start stop p) (i : Nat) :
    (p.start ≤ i ∧ i < p.stop) ↔ ∃ b ∈ p.blocks, b.start ≤ i ∧ i < b.stop := by
  constructor
  · rintro ⟨hlo, hhi⟩
    obtain ⟨a, ha, hstart⟩ := h.start_eq
    obtain ⟨z, hz, hstop⟩ := h.stop_eq
    exact exists_block_of_chained h.chained ha hz (by omega) (by omega)
  · rintro ⟨b, hb, hlo, hhi⟩
    have := h.start_le_of_mem hb
    have := h.stop_le_of_mem hb
    omega

/-- No block of a plan misses the range. -/
theorem Covers.meets (h : Covers regions start stop p) (hb : b ∈ p.blocks) :
    b.start < stop ∧ start < b.stop := by
  have hlt := (h.within b hb).start_lt_stop
  obtain ⟨a, ha, hlo, hin⟩ := h.first
  obtain ⟨z, hz, hbefore, hhi⟩ := h.last
  constructor
  · rcases h.eq_last_or_before hz hb with rfl | hbz
    · exact hbefore
    · omega
  · rcases h.eq_first_or_after ha hb with rfl | hab
    · exact hin
    · omega

theorem make_covers (h : make regions start len exact = .ok p) :
    Covers regions start (start + len) p := by
  obtain ⟨hlen, hb, _⟩ := make_ok h
  obtain ⟨c, hr, hle⟩ := coveringBlocks_reaches (by omega) hb
  exact hr.covers hle

/-- Whatever the table, a plan that is made covers the range without covering an address twice,
every block of it meets the range, and an exact plan has the range's own ends. -/
theorem make_sound (h : make regions start len exact = .ok p) :
    p.blocks ≠ [] ∧ Covers regions start (start + len) p ∧
      (p.blocks.Pairwise fun a b => a.stop ≤ b.start) ∧
      (∀ b ∈ p.blocks, b.start < start + len ∧ start < b.stop) ∧
      (exact = true → p.start = start ∧ p.stop = start + len) := by
  have hc := make_covers h
  obtain ⟨a, ha, _⟩ := hc.first
  have hne : p.blocks ≠ [] := by
    intro he
    simp [he] at ha
  exact ⟨hne, hc, pairwise_of_chained hc.within hc.chained, fun b hb => hc.meets hb,
    (make_ok h).2.2⟩

/-- Two regions, the second of them out of step with the first: head, middle and tail are blocks
of either. -/
theorem make_sound_out_of_step :
    ∃ p, make [⟨0, 4, 3, .erase20⟩, ⟨12, 6, 4, .eraseD8⟩, ⟨2, 0, 9, .erase52⟩] 5 20 false = .ok p ∧
      p.blocks.length = 5 ∧
      Covers [⟨0, 4, 3, .erase20⟩, ⟨12, 6, 4, .eraseD8⟩, ⟨2, 0, 9, .erase52⟩] 5 25 p := by
  have h : make [⟨0, 4, 3, .erase20⟩, ⟨12, 6, 4, .eraseD8⟩, ⟨2, 0, 9, .erase52⟩] 5 20 false =
      .ok ⟨[⟨⟨0, 4, 3, .erase20⟩, 1⟩, ⟨⟨0, 4, 3, .erase20⟩, 2⟩, ⟨⟨12, 6, 4, .eraseD8⟩, 0⟩,
        ⟨⟨12, 6, 4, .eraseD8⟩, 1⟩, ⟨⟨12, 6, 4, .eraseD8⟩, 2⟩]⟩ := by
    cbv
  exact ⟨_, h, rfl, (make_sound h).2.1⟩

end Plan
end NorFlash
