import Mathlib.Algebra.Order.Floor.Semifield
import Mathlib.Data.Rat.Floor
import Mathlib.Tactic.FieldSimp
import Mathlib.Tactic.Linarith
import NorFlash.Numeric.Binary64

namespace NorFlash.Binary64

def value (x : Binary64) : ℚ := x.mantissa * 2 ^ x.exponent

/-- It has at most 53 binary digits, and none below the smallest exponent. -/
def Representable (q : ℚ) : Prop :=
  ∃ (m : ℕ) (e : ℤ), m < 2 ^ 53 ∧ leastExponent ≤ e ∧ q = m * 2 ^ e

/-- The number is `q` correctly rounded. -/
structure Rounds (q : ℚ) (x : Binary64) : Prop where
  representable : Representable x.value
  closest : ∀ z, Representable z → |x.value - q| ≤ |z - q|
  even : ∀ z, Representable z → |z - q| = |x.value - q| → z = x.value ∨ x.mantissa % 2 = 0

/-- The number is the multiple of its power of two nearest to `q`, and uses all the digits that
there are. -/
structure Near (q : ℚ) (x : Binary64) : Prop where
  least : leastExponent ≤ x.exponent
  filled : x.exponent = leastExponent ∨ 2 ^ 52 * 2 ^ x.exponent ≤ q
  fits : q < 2 ^ 53 * 2 ^ x.exponent
  half : |x.value - q| ≤ 2 ^ x.exponent / 2
  even : |x.value - q| = 2 ^ x.exponent / 2 → x.mantissa % 2 = 0

variable {q : ℚ} {x : Binary64} {num den : ℕ} {e : ℤ}

theorem representable_zero : Representable 0 := ⟨0, 0, by decide, by decide, by simp⟩

/-- What needs no rounding is left as it is. -/
theorem Rounds.eq_of_representable (h : Rounds q x) (hq : Representable q) : x.value = q := by
  have hclosest := h.closest q hq
  rw [sub_self, abs_zero] at hclosest
  exact sub_eq_zero.mp (abs_nonpos_iff.mp hclosest)

theorem power_pos (e : ℤ) : 0 < power e := Nat.pow_pos (by decide)

theorem power_eq (e : ℤ) : (power e : ℚ) = 2 ^ e * power (-e) := by
  have hcast (n : ℤ) : (power n : ℚ) = 2 ^ n.toNat := Nat.cast_pow 2 n.toNat
  rcases le_total 0 e with h | h
  · have hzero : (-e).toNat = 0 := Int.toNat_of_nonpos (by omega)
    rw [hcast, hcast, hzero, pow_zero, mul_one, ← zpow_natCast, Int.toNat_of_nonneg h]
  · have hzero : e.toNat = 0 := Int.toNat_of_nonpos h
    have hnat : ((-e).toNat : ℤ) = -e := Int.toNat_of_nonneg (by omega)
    rw [hcast, hcast, hzero, pow_zero, ← zpow_natCast, hnat, ← zpow_add₀ (by norm_num),
      add_neg_cancel, zpow_zero]

theorem value_nonneg (x : Binary64) : 0 ≤ x.value :=
  mul_nonneg (Nat.cast_nonneg _) (zpow_pos two_pos _).le

theorem value_eq_div (x : Binary64) :
    x.value = (x.mantissa * power x.exponent : ℕ) / (power (-x.exponent) : ℕ) := by
  have hne : (power (-x.exponent) : ℚ) ≠ 0 := by exact_mod_cast (power_pos _).ne'
  rw [value, Nat.cast_mul, power_eq x.exponent]
  field_simp

theorem div_lt_zpow_iff (hden : 0 < den) :
    num * power (-e) < den * power e ↔ (num : ℚ) / den < 2 ^ e := by
  have hpos : (0 : ℚ) < power (-e) := by exact_mod_cast power_pos _
  have hden' : (0 : ℚ) < den := by exact_mod_cast hden
  rw [div_lt_iff₀ hden', ← @Nat.cast_lt ℚ, Nat.cast_mul, Nat.cast_mul, power_eq e, ← mul_assoc,
    mul_lt_mul_iff_left₀ hpos, mul_comm (den : ℚ)]

theorem scaled_div (hden : 0 < den) :
    ((num * power (-e) : ℕ) : ℚ) / (den * power e : ℕ) = num / den / 2 ^ e := by
  have hpos : (power (-e) : ℚ) ≠ 0 := by exact_mod_cast (power_pos _).ne'
  have hden' : (den : ℚ) ≠ 0 := by exact_mod_cast hden.ne'
  rw [Nat.cast_mul, Nat.cast_mul, power_eq e]
  field_simp

theorem roundToEven_near (num : ℕ) (hden : 0 < den) :
    |(roundToEven num den : ℚ) - num / den| ≤ 1 / 2 ∧
      (|(roundToEven num den : ℚ) - num / den| = 1 / 2 → roundToEven num den % 2 = 0) := by
  have hden' : (0 : ℚ) < den := by exact_mod_cast hden
  have hquot : (num : ℚ) / den = (num / den : ℕ) + (num % den : ℕ) / den := by
    have hsum : (num : ℚ) = den * (num / den : ℕ) + (num % den : ℕ) := by
      exact_mod_cast (Nat.div_add_mod num den).symm
    rw [eq_comm, ← sub_eq_zero]
    field_simp
    linarith
  have hrest : (0 : ℚ) ≤ (num % den : ℕ) / den := by positivity
  have hless : ((num % den : ℕ) : ℚ) / den < 1 := by
    rw [div_lt_one hden']
    exact_mod_cast Nat.mod_lt num hden
  have hbelow : 2 * (num % den) < den ↔ ((num % den : ℕ) : ℚ) / den < 1 / 2 := by
    rw [div_lt_div_iff₀ hden' two_pos, ← @Nat.cast_lt ℚ, Nat.cast_mul, Nat.cast_two, one_mul,
      mul_comm]
  have habove : den < 2 * (num % den) ↔ 1 / 2 < ((num % den : ℕ) : ℚ) / den := by
    rw [div_lt_div_iff₀ two_pos hden', ← @Nat.cast_lt ℚ, Nat.cast_mul, Nat.cast_two, one_mul,
      mul_comm]
  unfold roundToEven
  simp only [hbelow, habove, hquot]
  generalize num / den = n
  generalize ((num % den : ℕ) : ℚ) / den = t at *
  split_ifs with hlow hhigh
  · have hdist : |(n : ℚ) - (n + t)| = t := by
      rw [sub_add_cancel_left, abs_neg, abs_of_nonneg hrest]
    rw [hdist]
    exact ⟨hlow.le, fun h => absurd h hlow.ne⟩
  · have hdist : |((n + 1 : ℕ) : ℚ) - (n + t)| = 1 - t := by
      rw [Nat.cast_succ, add_sub_add_left_eq_sub, abs_of_pos (by linarith)]
    rw [hdist]
    exact ⟨by linarith, fun h => absurd h (by linarith)⟩
  · have hhalf : t = 1 / 2 := le_antisymm (not_lt.mp hhigh) (not_lt.mp hlow)
    refine ⟨?_, fun _ => by omega⟩
    rcases Nat.mod_two_eq_zero_or_one n with h | h <;> rw [h, hhalf] <;> norm_num [abs_le]

theorem floorLog_near (hnum : 0 < num) (hden : 0 < den) :
    (2 : ℚ) ^ floorLog num den ≤ num / den ∧ (num : ℚ) / den < 2 ^ (floorLog num den + 1) := by
  have hden' : (0 : ℚ) < den := by exact_mod_cast hden
  have hlow {n : ℕ} (h : 0 < n) : (2 : ℚ) ^ (n.log2 : ℤ) ≤ n := by
    rw [zpow_natCast]
    exact_mod_cast Nat.log2_self_le h.ne'
  have hhigh (n : ℕ) : (n : ℚ) < 2 ^ ((n.log2 : ℤ) + 1) := by
    have h : (n : ℚ) < 2 ^ (n.log2 + 1) := by exact_mod_cast Nat.lt_log2_self
    exact_mod_cast h
  have hbelow : (2 : ℚ) ^ ((num.log2 : ℤ) - den.log2 - 1) ≤ num / den := by
    rw [le_div_iff₀ hden']
    calc
      _ ≤ (2 : ℚ) ^ ((num.log2 : ℤ) - den.log2 - 1) * 2 ^ ((den.log2 : ℤ) + 1) :=
        mul_le_mul_of_nonneg_left (hhigh den).le (zpow_pos two_pos _).le
      _ = 2 ^ (num.log2 : ℤ) := by
        rw [← zpow_add₀ two_ne_zero]
        congr 1
        omega
      _ ≤ num := hlow hnum
  have habove : (num : ℚ) / den < 2 ^ ((num.log2 : ℤ) - den.log2 + 1) := by
    rw [div_lt_iff₀ hden']
    calc
      (num : ℚ) < 2 ^ ((num.log2 : ℤ) + 1) := hhigh num
      _ = 2 ^ ((num.log2 : ℤ) - den.log2 + 1) * 2 ^ (den.log2 : ℤ) := by
        rw [← zpow_add₀ two_ne_zero]
        congr 1
        omega
      _ ≤ _ := mul_le_mul_of_nonneg_left (hlow hden) (zpow_pos two_pos _).le
  unfold floorLog
  dsimp only
  split_ifs with h <;> rw [div_lt_zpow_iff hden] at h
  · exact ⟨hbelow, by rwa [sub_add_cancel]⟩
  · exact ⟨not_lt.mp h, habove⟩

theorem nearest_near (hnum : 0 < num) (hden : 0 < den) :
    Near ((num : ℚ) / den) (nearest num den) := by
  obtain ⟨hlow, hhigh⟩ := floorLog_near hnum hden
  have hlog : floorLog num den = floorLog num den - fractionDigits + 52 := by
    rw [fractionDigits]
    omega
  have hnearest : nearest num den = ⟨roundToEven
      (num * power (-max (floorLog num den - fractionDigits) leastExponent))
      (den * power (max (floorLog num den - fractionDigits) leastExponent)),
      max (floorLog num den - fractionDigits) leastExponent⟩ := by
    rw [nearest, if_neg hnum.ne']
  rw [hlog] at hlow hhigh
  rw [hnearest]
  generalize floorLog num den - fractionDigits = k at *
  have hpos : (0 : ℚ) < 2 ^ max k leastExponent := zpow_pos two_pos _
  obtain ⟨hhalf, heven⟩ := roundToEven_near (num * power (-max k leastExponent))
    (Nat.mul_pos hden (power_pos (max k leastExponent)))
  rw [scaled_div hden] at hhalf heven
  generalize roundToEven _ _ = m at *
  have hdist : |(m : ℚ) * 2 ^ max k leastExponent - num / den| =
      |(m : ℚ) - num / den / 2 ^ max k leastExponent| * 2 ^ max k leastExponent := by
    rw [← abs_of_pos hpos, ← abs_mul, abs_of_pos hpos, sub_mul, div_mul_cancel₀ _ hpos.ne']
  constructor
  · exact le_max_right _ _
  · rcases le_total k leastExponent with h | h
    · exact .inl (max_eq_right h)
    · refine .inr ?_
      dsimp only
      rw [max_eq_left h, mul_comm, ← zpow_natCast, ← zpow_add₀ two_ne_zero]
      exact hlow
  · dsimp only
    refine hhigh.trans_le ?_
    rw [← zpow_natCast, ← zpow_add₀ two_ne_zero]
    refine zpow_le_zpow_right₀ one_le_two ?_
    have := le_max_left k leastExponent
    push_cast
    omega
  · rw [value, hdist]
    dsimp only
    linarith [mul_le_mul_of_nonneg_right hhalf hpos.le]
  · intro h
    rw [value, hdist] at h
    dsimp only at h ⊢
    refine heven (mul_right_cancel₀ hpos.ne' ?_)
    rw [h]
    ring

namespace Near

/-- No multiple of its power of two is nearer, and if another one is as near, the number is even. -/
theorem multiple (h : Near q x) (n : ℕ) : |x.value - q| ≤ |n * 2 ^ x.exponent - q| ∧
    (|n * 2 ^ x.exponent - q| = |x.value - q| →
      n * 2 ^ x.exponent = x.value ∨ x.mantissa % 2 = 0) := by
  have hpos : (0 : ℚ) < 2 ^ x.exponent := zpow_pos two_pos _
  rcases eq_or_ne n x.mantissa with rfl | hn
  · exact ⟨le_rfl, fun _ => .inl rfl⟩
  have hapart : (1 : ℚ) ≤ |(n : ℚ) - x.mantissa| := by
    have hint : (1 : ℤ) ≤ |(n : ℤ) - x.mantissa| := Int.one_le_abs (by omega)
    exact_mod_cast hint
  have hgap : (2 : ℚ) ^ x.exponent ≤ |n * 2 ^ x.exponent - x.value| := by
    rw [value, ← sub_mul, abs_mul, abs_of_pos hpos]
    linarith [mul_le_mul_of_nonneg_right hapart hpos.le]
  have hsides := abs_sub_le ((n : ℚ) * 2 ^ x.exponent) q x.value
  rw [abs_sub_comm q] at hsides
  have hhalf := h.half
  refine ⟨by linarith, fun heq => .inr (h.even ?_)⟩
  linarith

theorem mantissa_le (h : Near q x) : x.mantissa ≤ 2 ^ 53 := by
  have hpos : (0 : ℚ) < 2 ^ x.exponent := zpow_pos two_pos _
  have hupper := (abs_le.mp h.half).2
  have hfits := h.fits
  have hlt : (x.mantissa : ℚ) * 2 ^ x.exponent < (2 ^ 53 + 1 : ℕ) * 2 ^ x.exponent := by
    change x.value < _
    push_cast
    linarith
  have hmantissa := lt_of_mul_lt_mul_right hlt hpos.le
  rw [Nat.cast_lt] at hmantissa
  omega

theorem representable (h : Near q x) : Representable x.value := by
  rcases h.mantissa_le.lt_or_eq with hlt | heq
  · exact ⟨x.mantissa, x.exponent, hlt, h.least, rfl⟩
  · refine ⟨2 ^ 52, x.exponent + 1, by decide, h.least.trans (by omega), ?_⟩
    rw [value, heq, zpow_add_one₀ two_ne_zero]
    push_cast
    ring

/-- What has a smaller power of two than the number lies below it, and `q` does not. -/
theorem below (h : Near q x) {m : ℕ} (hm : m < 2 ^ 53) (hleast : leastExponent ≤ e)
    (he : e < x.exponent) : m * 2 ^ e < (2 ^ 52 : ℕ) * (2 : ℚ) ^ x.exponent ∧
      (2 ^ 52 : ℕ) * 2 ^ x.exponent ≤ q := by
  have hpos : (0 : ℚ) < 2 ^ e := zpow_pos two_pos _
  constructor
  · calc
      (m : ℚ) * 2 ^ e < (2 ^ 53 : ℕ) * 2 ^ e :=
        mul_lt_mul_of_pos_right (Nat.cast_lt.mpr hm) hpos
      _ = (2 ^ 52 : ℕ) * 2 ^ (e + 1) := by
        rw [zpow_add_one₀ two_ne_zero]
        push_cast
        ring
      _ ≤ (2 ^ 52 : ℕ) * 2 ^ x.exponent :=
        mul_le_mul_of_nonneg_left (zpow_le_zpow_right₀ one_le_two he) (Nat.cast_nonneg _)
  · have hfilled := h.filled.resolve_left (by omega)
    exact_mod_cast hfilled

theorem rounds (h : Near q x) : Rounds q x := by
  have hnone {m : ℕ} {e : ℤ} (hm : m < 2 ^ 53) (hleast : leastExponent ≤ e)
      (he : e < x.exponent) : |x.value - q| < |m * 2 ^ e - q| := by
    obtain ⟨hlt, hle⟩ := h.below hm hleast he
    refine (h.multiple (2 ^ 52)).1.trans_lt ?_
    rw [abs_of_nonpos (by linarith), abs_of_neg (by linarith)]
    linarith
  have hmultiple {m : ℕ} {e : ℤ} (he : x.exponent ≤ e) :
      ∃ n : ℕ, (m : ℚ) * 2 ^ e = n * 2 ^ x.exponent := by
    refine ⟨m * 2 ^ (e - x.exponent).toNat, ?_⟩
    have hnat : ((e - x.exponent).toNat : ℤ) = e - x.exponent := Int.toNat_of_nonneg (by omega)
    rw [Nat.cast_mul, Nat.cast_pow, Nat.cast_two, ← zpow_natCast, hnat, mul_assoc,
      ← zpow_add₀ two_ne_zero, sub_add_cancel]
  refine ⟨h.representable, ?_, ?_⟩
  · rintro _ ⟨m, e, hm, hleast, rfl⟩
    rcases lt_or_ge e x.exponent with he | he
    · exact (hnone hm hleast he).le
    · obtain ⟨n, hn⟩ := hmultiple (m := m) he
      rw [hn]
      exact (h.multiple n).1
  · rintro _ ⟨m, e, hm, hleast, rfl⟩ heq
    rcases lt_or_ge e x.exponent with he | he
    · exact absurd heq (hnone hm hleast he).ne'
    · obtain ⟨n, hn⟩ := hmultiple (m := m) he
      rw [hn] at heq ⊢
      exact (h.multiple n).2 heq

theorem error (h : Near q x) (hq : 0 ≤ q) :
    |x.value - q| ≤ q / 2 ^ 53 + 2 ^ (leastExponent - 1) := by
  refine h.half.trans ?_
  rcases h.filled with heq | hle
  · rw [heq, zpow_sub_one₀ two_ne_zero, ← div_eq_mul_inv]
    linarith [div_nonneg hq (pow_nonneg two_pos.le 53)]
  · have hpart : (2 : ℚ) ^ x.exponent / 2 ≤ q / 2 ^ 53 := by
      rw [le_div_iff₀ (by norm_num)]
      linarith
    exact hpart.trans (le_add_of_nonneg_right (zpow_pos two_pos _).le)

end Near

theorem nearest_zero (den : ℕ) : nearest 0 den = ⟨0, 0⟩ := if_pos rfl

@[simp] theorem value_zero : (⟨0, 0⟩ : Binary64).value = 0 := by simp [value]

theorem nearest_rounds (num : ℕ) (hden : 0 < den) : Rounds ((num : ℚ) / den) (nearest num den) := by
  rcases Nat.eq_zero_or_pos num with rfl | hnum
  · rw [nearest_zero, Nat.cast_zero, zero_div]
    refine ⟨value_zero ▸ representable_zero, fun z _ => ?_, fun _ _ _ => .inr rfl⟩
    rw [value_zero, sub_self, abs_zero]
    exact abs_nonneg _
  · exact (nearest_near hnum hden).rounds

theorem nearest_error (num : ℕ) (hden : 0 < den) :
    |(nearest num den).value - num / den| ≤ num / den / 2 ^ 53 + 2 ^ (leastExponent - 1) := by
  rcases Nat.eq_zero_or_pos num with rfl | hnum
  · rw [nearest_zero, value_zero, Nat.cast_zero, zero_div, zero_div, zero_add, sub_self, abs_zero]
    exact (zpow_pos two_pos _).le
  · exact (nearest_near hnum hden).error (by positivity)

theorem scale_eq (x : Binary64) (k : ℕ) :
    ((x.mantissa * k * power x.exponent : ℕ) : ℚ) / (power (-x.exponent) : ℕ) = x.value * k := by
  rw [value_eq_div, Nat.cast_mul, Nat.cast_mul, Nat.cast_mul]
  ring

theorem scale_rounds (x : Binary64) (k : ℕ) : Rounds (x.value * k) (x.scale k) :=
  x.scale_eq k ▸ nearest_rounds _ (power_pos _)

theorem scale_error (x : Binary64) (k : ℕ) :
    |(x.scale k).value - x.value * k| ≤ x.value * k / 2 ^ 53 + 2 ^ (leastExponent - 1) :=
  x.scale_eq k ▸ nearest_error _ (power_pos _)

theorem round_eq_floor (x : Binary64) : x.round = ⌊x.value + 1 / 2⌋₊ := by
  have hpos : (0 : ℚ) < power (-x.exponent) := by exact_mod_cast power_pos _
  have hhalves : x.value + 1 / 2 =
      ((2 * (x.mantissa * power x.exponent) + power (-x.exponent) : ℕ) : ℚ) /
        (2 * power (-x.exponent) : ℕ) := by
    rw [value_eq_div]
    push_cast
    field_simp
  rw [hhalves, Nat.floor_div_eq_div]
  rfl

theorem isPositive_iff (x : Binary64) : x.isPositive = true ↔ 0 < x.value := by
  have hpos : (0 : ℚ) < 2 ^ x.exponent := zpow_pos two_pos _
  rw [isPositive, decide_eq_true_iff, value, mul_pos_iff_of_pos_right hpos, Nat.cast_pos]

end NorFlash.Binary64
