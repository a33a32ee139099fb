import NorFlash.Proofs.DeadEnd

namespace NorFlash

variable {regions : List Region} {b x : Block} {addr start stop cursor : Nat}

namespace Plan

/-- Candidates are ranked: two never beat each other, and whoever beats `z` beats also whatever
does not beat `z`. -/
structure Ranked {α : Type} (beats : α → α → Bool) : Prop where
  asymm : ∀ x y, beats x y = true → beats y x = false
  trans : ∀ x y z, beats x y = false → beats y z = false → beats x z = false

section Ranked

variable {α : Type} {beats : α → α → Bool}

theorem Ranked.irrefl (h : Ranked beats) (x : α) : beats x x = false := by
  cases hx : beats x x with
  | false => rfl
  | true => rw [← hx, h.asymm x x hx]

/-- Going through the candidates only makes the choice better. -/
theorem Ranked.foldl_unbeaten (h : Ranked beats) (a : α) (xs : List α) :
    ∀ x ∈ a :: xs, beats x (xs.foldl (fun b y => if beats y b then y else b) a) = false := by
  induction xs generalizing a with
  | nil =>
    intro x hx
    rw [List.mem_singleton.mp hx]
    exact h.irrefl a
  | cons y ys ih =>
    intro x hx
    rw [List.foldl_cons]
    split
    case isTrue hbeats =>
      have hy := ih y y List.mem_cons_self
      rcases List.mem_cons.mp hx with rfl | hx
      · exact h.trans x y _ (h.asymm y x hbeats) hy
      · exact ih y x hx
    case isFalse hkeeps =>
      have ha := ih a a List.mem_cons_self
      rcases List.mem_cons.mp hx with rfl | hx
      · exact ha
      · rcases List.mem_cons.mp hx with rfl | hx
        · exact h.trans x a _ (by simpa using hkeeps) ha
        · exact ih a x (List.mem_cons_of_mem a hx)

theorem Ranked.unbeaten (h : Ranked beats) {xs : List α} {b x : α} (hb : best? beats xs = some b)
    (hx : x ∈ xs) : beats x b = false := by
  cases xs with
  | nil => cases hx
  | cons a xs =>
    simp only [best?, Option.some.injEq] at hb
    rw [← hb]
    exact h.foldl_unbeaten a xs x hx

end Ranked

/-- Less waste ranks higher, and with equal waste the larger block. -/
theorem ranked_waste (start stop : Nat) : Ranked fun y b : Block =>
    waste start stop y < waste start stop b ||
      waste start stop y == waste start stop b && b.size < y.size := by
  constructor
  · intro x y h
    simp only [Bool.or_eq_true, Bool.and_eq_true, decide_eq_true_eq, beq_iff_eq] at h
    simp only [Bool.or_eq_false_iff, Bool.and_eq_false_iff, decide_eq_false_iff_not,
      beq_eq_false_iff_ne]
    omega
  · intro x y z hxy hyz
    simp only [Bool.or_eq_false_iff, Bool.and_eq_false_iff, decide_eq_false_iff_not,
      beq_eq_false_iff_ne] at hxy hyz ⊢
    omega

theorem ranked_larger : Ranked fun y b : Block => b.size < y.size := by
  constructor <;> simp only [decide_eq_true_eq, decide_eq_false_iff_not] <;> omega

theorem ranked_smaller : Ranked fun y b : Block => y.size < b.size := by
  constructor <;> simp only [decide_eq_true_eq, decide_eq_false_iff_not] <;> omega

theorem mem_headCandidates_iff (ha : addr < addressSpace) :
    b ∈ headCandidates regions addr ↔ b.Within regions ∧ b.start ≤ addr ∧ addr < b.stop := by
  constructor
  · exact mem_headCandidates
  · rintro ⟨hw, hlo, hhi⟩
    exact List.mem_filterMap.mpr ⟨b.region, hw.region, hw.blockHolding? hlo hhi ha⟩

theorem mem_tailCandidates_iff :
    b ∈ tailCandidates regions cursor ↔ b.Within regions ∧ b.start = cursor := by
  constructor
  · exact mem_tailCandidates
  · rintro ⟨hw, rfl⟩
    exact mem_tailCandidates_of_within hw

theorem mem_middleCandidates_iff : b ∈ middleCandidates regions cursor stop ↔
    b.Within regions ∧ b.start = cursor ∧ b.stop ≤ stop := by
  have h : middleCandidates regions cursor stop =
      (tailCandidates regions cursor).filter fun b => b.stop ≤ stop := rfl
  rw [h, List.mem_filter, mem_tailCandidates_iff, decide_eq_true_eq, and_assoc]

/-- No block around the start wastes less than the head, and none that wastes as little is
larger. -/
theorem selectHead_least (h : selectHead regions start stop = some b) (hx : x.Within regions)
    (hlo : x.start ≤ start) (hhi : start < x.stop) (ha : start < addressSpace) :
    waste start stop b < waste start stop x ∨
      waste start stop b = waste start stop x ∧ x.size ≤ b.size := by
  have hmem := (mem_headCandidates_iff ha).mpr ⟨hx, hlo, hhi⟩
  have hbest := (ranked_waste start stop).unbeaten h hmem
  simp only [Bool.or_eq_false_iff, Bool.and_eq_false_iff, decide_eq_false_iff_not,
    beq_eq_false_iff_ne] at hbest
  omega

/-- Every block of the same start that fits into the range fits into the chosen one. -/
theorem selectMiddle_largest (h : selectMiddle regions cursor stop = some b)
    (hx : x.Within regions) (hs : x.start = cursor) (hfits : x.stop ≤ stop) : x.size ≤ b.size := by
  have hmem := mem_middleCandidates_iff.mpr ⟨hx, hs, hfits⟩
  simpa using ranked_larger.unbeaten h hmem

theorem selectTail_smallest (h : selectTail regions cursor = some b) (hx : x.Within regions)
    (hs : x.start = cursor) : b.size ≤ x.size := by
  have hmem := mem_tailCandidates_iff.mpr ⟨hx, hs⟩
  simpa using ranked_smaller.unbeaten h hmem

/-- No block of the table from the same address on is larger and still ends inside the range. -/
def Widest (regions : List Region) (stop : Nat) (b : Block) : Prop :=
  ∀ x : Block, x.Within regions → x.start = b.start → x.stop ≤ stop → x.size ≤ b.size

/-- A smaller block than the head may miss the start; one that holds it and fits wastes nothing
behind the range. -/
theorem selectHead_widest (h : selectHead regions start stop = some b) (ha : start < addressSpace) :
    Widest regions stop b := by
  intro x hx hs hfits
  obtain ⟨_, hlo, hhi⟩ := selectHead_some h
  have hb : b.stop = b.start + b.size := rfl
  have hxs : x.stop = x.start + x.size := rfl
  by_cases hin : start < x.stop
  · have hleast := selectHead_least h hx (by omega) hin ha
    unfold waste at hleast
    omega
  · omega

theorem middle_widest (hb : b ∈ middleBlocks regions stop cursor) :
    Widest regions stop b ∧ b.stop ≤ stop := by
  fun_induction middleBlocks regions stop cursor with
  | case1 cursor hlt c hc ih =>
    rcases List.mem_cons.mp hb with rfl | hb
    · refine ⟨fun x hx hs hfits => ?_, (selectMiddle_stop hc).2⟩
      exact selectMiddle_largest hc hx (hs.trans (selectMiddle_some hc).2) hfits
    · exact ih hb
  | case2 cursor hlt hn => cases hb
  | case3 cursor hge => cases hb

theorem cursorAfter_middle_le (regions : List Region) (stop cursor : Nat) :
    cursorAfter cursor (middleBlocks regions stop cursor) ≤ max cursor stop := by
  unfold cursorAfter
  cases hlast : (middleBlocks regions stop cursor).getLast? with
  | none => exact Nat.le_max_left _ _
  | some b =>
    have hb := (middle_widest (List.mem_of_getLast? hlast)).2
    exact Nat.le_trans hb (Nat.le_max_right _ _)

/-- What the phases take when they end well: a head, the middle blocks from its end on, and a last
block only if the end of the range is not yet reached. -/
theorem phases_ok {bs : List Block} (h : phases regions start stop = .ok bs) :
    ∃ head, selectHead regions start stop = some head ∧
      ((bs = head :: middleBlocks regions stop head.stop ∧
          stop ≤ cursorAfter head.stop (middleBlocks regions stop head.stop)) ∨
        ∃ tail, bs = head :: middleBlocks regions stop head.stop ++ [tail] ∧
          cursorAfter head.stop (middleBlocks regions stop head.stop) < stop ∧
          selectTail regions (cursorAfter head.stop (middleBlocks regions stop head.stop)) =
            some tail ∧ stop ≤ tail.stop) := by
  unfold phases at h
  split at h
  case h_1 => cases h
  case h_2 head hhead =>
    dsimp only at h
    rw [cursorAfter_cons] at h
    refine ⟨head, hhead, ?_⟩
    split at h
    case isTrue hle =>
      cases h
      exact .inl ⟨rfl, hle⟩
    case isFalse hshort =>
      split at h
      case h_1 => cases h
      case h_2 tail htail =>
        split at h
        case isTrue => cases h
        case isFalse hreach =>
          cases h
          exact .inr ⟨tail, rfl, by omega, htail, by omega⟩

/-- Each block that the phases take is the widest from its start on. -/
theorem phases_widest {bs : List Block} (h : phases regions start stop = .ok bs)
    (ha : start < addressSpace) (hb : b ∈ bs) : Widest regions stop b := by
  obtain ⟨head, hhead, hcases⟩ := phases_ok h
  have hinner : b ∈ head :: middleBlocks regions stop head.stop → Widest regions stop b := by
    intro hb
    rcases List.mem_cons.mp hb with rfl | hb
    · exact selectHead_widest hhead ha
    · exact (middle_widest hb).1
  rcases hcases with ⟨rfl, _⟩ | ⟨tail, rfl, hshort, htail, _⟩
  · exact hinner hb
  · rcases List.mem_append.mp hb with hb | hb
    · exact hinner hb
    · -- from where the middle phase ends every block leads past the range
      rw [List.mem_singleton.mp hb]
      intro x hx hs hfits
      have hx' := mem_tailCandidates_iff.mpr ⟨hx, hs.trans (selectTail_some htail).2⟩
      rcases middle_ends regions stop head.stop with hend | hpast
      · omega
      · have := hpast x hx'
        omega

variable {len : Nat} {p : Plan}

theorem make_exact (h : make regions start len false = .ok p) (hstart : p.start = start)
    (hstop : p.stop = start + len) : make regions start len true = .ok p := by
  obtain ⟨_, hb, _⟩ := make_ok h
  have hfits : (p.start == start && p.stop == start + len) = true := by
    rw [hstart, hstop, beq_self_eq_true, beq_self_eq_true]
    rfl
  rw [make, if_neg (len_ne_zero h), hb]
  exact if_pos hfits

end Plan
end NorFlash
