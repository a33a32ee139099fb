import NorFlash.Proofs.Rounding
import NorFlash.Session.Parameters

namespace NorFlash

namespace Text.Decimal

/-- The number without its sign. -/
def magnitude (d : Decimal) : ℚ := d.digits / (10 ^ d.places : ℕ)

def value (d : Decimal) : ℚ := if d.negative then -d.magnitude else d.magnitude

theorem magnitude_nonneg (d : Decimal) : 0 ≤ d.magnitude := by
  rw [magnitude]
  positivity

theorem value_of_not_negative {d : Decimal} (h : d.negative = false) : d.value = d.magnitude := by
  rw [value, h, if_neg Bool.false_ne_true]

theorem not_negative_of_value_pos {d : Decimal} (h : 0 < d.value) : d.negative = false := by
  rw [value] at h
  split_ifs at h with hsign
  · linarith [d.magnitude_nonneg]
  · exact eq_false_of_ne_true hsign

end Text.Decimal

namespace Parameters

open Binary64

variable {n k : Nat} {s : String} {d : Text.Decimal}

/-- The text is this number with a unit of so many base units. -/
structure Says (units : List (String × Nat)) (s : String) (d : Text.Decimal) (k : Nat) : Prop where
  number : Text.Decimal.ofChars? (splitUnit s).1 = some d
  unit : units.lookup (splitUnit s).2 = some k

/-- So many base units, to 53 binary digits. -/
def measured (d : Text.Decimal) (k : Nat) : Binary64 := (nearestOf d).scale k

section

variable {units : List (String × Nat)} {most : Nat}

theorem quantity?_eq (h : Says units s d k) : quantity? units most s =
    if d.negative || !(measured d k).isPositive then none
    else if most < (measured d k).round then none
    else some (measured d k).round := by
  unfold quantity?
  simp only [h.number, h.unit, Option.bind_eq_bind, Option.bind_some]
  rfl

theorem exists_number (h : quantity? units most s = some n) : ∃ d k, Says units s d k := by
  unfold quantity? at h
  obtain ⟨d, hnumber, h⟩ := Option.bind_eq_some_iff.mp h
  obtain ⟨k, hunit, _⟩ := Option.bind_eq_some_iff.mp h
  exact ⟨d, k, hnumber, hunit⟩

theorem quantity?_eq_some_iff (h : Says units s d k) : quantity? units most s = some n ↔
    d.negative = false ∧ 0 < (measured d k).value ∧ (measured d k).value < most + 1 / 2 ∧
      n = ⌊(measured d k).value + 1 / 2⌋₊ := by
  have hrange : (measured d k).value < most + 1 / 2 ↔ ¬most < (measured d k).round := by
    have hnonneg : 0 ≤ (measured d k).value + 1 / 2 := by linarith [(measured d k).value_nonneg]
    rw [round_eq_floor, not_lt, ← Nat.lt_succ_iff, Nat.floor_lt hnonneg, Nat.cast_succ]
    constructor <;> intro h <;> linarith
  rw [quantity?_eq h, hrange, ← isPositive_iff, ← round_eq_floor]
  cases d.negative <;> cases (measured d k).isPositive <;>
    by_cases hmost : most < (measured d k).round <;> simp [hmost, eq_comm]

end

theorem nearestOf_rounds (d : Text.Decimal) : Rounds d.magnitude (nearestOf d) :=
  nearest_rounds d.digits (Nat.pow_pos (by decide))

theorem measured_rounds (d : Text.Decimal) (k : Nat) :
    Rounds ((nearestOf d).value * k) (measured d k) :=
  (nearestOf d).scale_rounds k

theorem measured_zero (h : d.magnitude = 0) (k : Nat) : (measured d k).value = 0 := by
  have hnumber := nearestOf_rounds d
  rw [h] at hnumber
  have hproduct := measured_rounds d k
  rw [hnumber.eq_of_representable representable_zero, zero_mul] at hproduct
  exact hproduct.eq_of_representable representable_zero

/-- Rounding the number and then the product changes little. -/
theorem measured_error (d : Text.Decimal) (hk : k ≤ 10 ^ 6) :
    |(measured d k).value - d.magnitude * k| ≤ d.magnitude * k / 2 ^ 51 + 1 / 10 ^ 6 := by
  have hnumber : |(nearestOf d).value - d.magnitude| ≤
      d.magnitude / 2 ^ 53 + 2 ^ (leastExponent - 1) :=
    nearest_error d.digits (Nat.pow_pos (by decide))
  have hproduct := (nearestOf d).scale_error k
  have hk' : (k : ℚ) ≤ 10 ^ 6 := by exact_mod_cast hk
  have hpositive : (0 : ℚ) ≤ k := Nat.cast_nonneg k
  have hmagnitude := mul_nonneg d.magnitude_nonneg hpositive
  have hleast : (2 : ℚ) ^ (leastExponent - 1) ≤ 1 / 2 ^ 50 := by
    rw [one_div, ← zpow_natCast, ← zpow_neg]
    exact zpow_le_zpow_right₀ one_le_two (by decide)
  have hsmall : k * (2 : ℚ) ^ (leastExponent - 1) ≤ 10 ^ 6 * (1 / 2 ^ 50) :=
    mul_le_mul hk' hleast (zpow_pos two_pos _).le (by norm_num)
  rw [measured]
  generalize (2 : ℚ) ^ (leastExponent - 1) = least at *
  generalize ((nearestOf d).scale k).value = x at *
  generalize (nearestOf d).value = y at *
  generalize d.magnitude = v at *
  have hscaled : |y * k - v * k| ≤ v * k / 2 ^ 53 + k * least := by
    rw [← sub_mul, abs_mul, abs_of_nonneg hpositive]
    linarith [mul_le_mul_of_nonneg_right hnumber hpositive]
  have hupper := (abs_le.mp hscaled).2
  have hsides := abs_sub_le x (y * k) (v * k)
  linarith

/-- What is in range is off by no more than a hundred-thousandth. -/
theorem measured_close (d : Text.Decimal) (hk : k ≤ 10 ^ 6)
    (h : (measured d k).value ≤ 2 ^ 32 ∨ d.magnitude * k ≤ 2 ^ 32) :
    |(measured d k).value - d.magnitude * k| ≤ 1 / 10 ^ 5 := by
  have herror := measured_error d hk
  have hlower := (abs_le.mp herror).1
  have hmagnitude : d.magnitude * k ≤ 2 ^ 33 := by
    rcases h with h | h <;> linarith
  linarith

inductive Quantity where
  | voltage
  | frequency

namespace Quantity

def key : Quantity → String
  | voltage => "voltage"
  | frequency => "hz"

def units : Quantity → List (String × Nat)
  | voltage => voltageUnits
  | frequency => frequencyUnits

def most : Quantity → Nat
  | voltage => mostVolts
  | frequency => mostHertz

def parse : Quantity → String → Except Failure Nat
  | voltage => Parameters.voltage
  | frequency => Parameters.frequency

variable {q : Quantity}

theorem parse_eq (q : Quantity) (s : String) : q.parse s =
    match quantity? q.units q.most s with
    | some n => .ok n
    | none => .error (invalid q.key s) := by
  cases q with
  | voltage =>
    rw [parse, Parameters.voltage, units, most]
    cases quantity? voltageUnits mostVolts s <;> rfl
  | frequency =>
    rw [parse, Parameters.frequency, units, most]
    cases quantity? frequencyUnits mostHertz s <;> rfl

theorem parse_eq_ok_iff : q.parse s = .ok n ↔ quantity? q.units q.most s = some n := by
  rw [parse_eq]
  cases quantity? q.units q.most s <;> simp

theorem parse_refused (h : ∀ n, q.parse s ≠ .ok n) : q.parse s = .error (invalid q.key s) := by
  rw [parse_eq] at h ⊢
  cases hread : quantity? q.units q.most s with
  | none => rfl
  | some n => exact absurd (by rw [hread]) (h n)

theorem most_lt (q : Quantity) : q.most < 2 ^ 32 := by
  cases q <;> decide

theorem unit_bounds (h : Says q.units s d k) : 1 ≤ k ∧ k ≤ 10 ^ 6 := by
  have hall : ∀ u ∈ q.units, 1 ≤ u.2 ∧ u.2 ≤ 10 ^ 6 := by
    cases q <;> decide
  obtain ⟨before, after, hunits, _⟩ := List.lookup_eq_some_iff.mp h.unit
  refine hall ((splitUnit s).2, k) ?_
  rw [hunits]
  exact List.mem_append_right _ List.mem_cons_self

/-- What comes of a text that is this number with a unit of so many base units. -/
structure Measures (q : Quantity) (s : String) (d : Text.Decimal) (k : Nat) : Prop where
  number : Rounds d.magnitude (nearestOf d)
  product : Rounds ((nearestOf d).value * k) (measured d k)
  /-- It is positive and in range, and the nearest whole number to it is read. -/
  ok_iff : ∀ n, q.parse s = .ok n ↔ d.negative = false ∧ 0 < (measured d k).value ∧
    (measured d k).value < q.most + 1 / 2 ∧ n = ⌊(measured d k).value + 1 / 2⌋₊
  zero_iff : q.parse s = .ok 0 ↔
    d.negative = false ∧ 0 < (measured d k).value ∧ (measured d k).value < 1 / 2
  close : ∀ n, q.parse s = .ok n → |n - d.value * k| ≤ 1 / 2 + 1 / 10 ^ 5
  accepted : 1 ≤ d.value * k → d.value * k ≤ q.most → ∃ n, 1 ≤ n ∧ q.parse s = .ok n
  refused : d.value * k ≤ 0 ∨ q.most + 1 ≤ d.value * k → q.parse s = .error (invalid q.key s)

theorem parse_eq_ok_iff_floor (h : Says q.units s d k) : q.parse s = .ok n ↔
    d.negative = false ∧ 0 < (measured d k).value ∧ (measured d k).value < q.most + 1 / 2 ∧
      n = ⌊(measured d k).value + 1 / 2⌋₊ :=
  parse_eq_ok_iff.trans (quantity?_eq_some_iff h)

theorem parse_eq_zero_iff (h : Says q.units s d k) : q.parse s = .ok 0 ↔
    d.negative = false ∧ 0 < (measured d k).value ∧ (measured d k).value < 1 / 2 := by
  have hfloor : 0 = ⌊(measured d k).value + 1 / 2⌋₊ ↔ (measured d k).value < 1 / 2 := by
    rw [eq_comm, Nat.floor_eq_zero]
    constructor <;> intro h <;> linarith
  have hmost : (0 : ℚ) ≤ q.most := Nat.cast_nonneg _
  rw [parse_eq_ok_iff_floor h, hfloor]
  constructor
  · rintro ⟨hsign, hpositive, _, hsmall⟩
    exact ⟨hsign, hpositive, hsmall⟩
  · rintro ⟨hsign, hpositive, hsmall⟩
    exact ⟨hsign, hpositive, by linarith, hsmall⟩

theorem le_most_of_parse (h : q.parse s = .ok n) : n ≤ q.most := by
  rw [parse_eq_ok_iff] at h
  obtain ⟨d, k, hd⟩ := exists_number h
  obtain ⟨_, hpositive, hrange, rfl⟩ := (quantity?_eq_some_iff hd).mp h
  rw [← Nat.lt_succ_iff, Nat.floor_lt (by linarith), Nat.cast_succ]
  linarith

theorem parse_close (hd : Says q.units s d k) (h : q.parse s = .ok n) :
    |n - d.value * k| ≤ 1 / 2 + 1 / 10 ^ 5 := by
  obtain ⟨hsign, hpositive, hrange, rfl⟩ := (parse_eq_ok_iff_floor hd).mp h
  have hmost : (q.most : ℚ) + 1 ≤ 2 ^ 32 := by exact_mod_cast q.most_lt
  have hclose := abs_le.mp
    (measured_close d (unit_bounds hd).2 (.inl (by linarith)))
  have hfloor := Nat.floor_le (a := (measured d k).value + 1 / 2) (by linarith)
  have hnext := Nat.lt_floor_add_one ((measured d k).value + 1 / 2)
  rw [Text.Decimal.value_of_not_negative hsign, abs_le]
  constructor <;> linarith [hclose.1, hclose.2]

theorem parse_accepted (hd : Says q.units s d k) (hone : 1 ≤ d.value * k)
    (hmost : d.value * k ≤ q.most) : ∃ n, 1 ≤ n ∧ q.parse s = .ok n := by
  have hunit : (0 : ℚ) < k := Nat.cast_pos.mpr (unit_bounds hd).1
  have hsign : d.negative = false := Text.Decimal.not_negative_of_value_pos
    (pos_of_mul_pos_left (by linarith) hunit.le)
  have hlt : (q.most : ℚ) + 1 ≤ 2 ^ 32 := by exact_mod_cast q.most_lt
  rw [Text.Decimal.value_of_not_negative hsign] at hone hmost
  have hclose := abs_le.mp
    (measured_close d (unit_bounds hd).2 (.inr (by linarith)))
  refine ⟨_, ?_, (parse_eq_ok_iff_floor hd).mpr ⟨hsign, ?_, ?_, rfl⟩⟩
  · refine Nat.le_floor ?_
    push_cast
    linarith [hclose.1]
  · linarith [hclose.1]
  · linarith [hclose.2]

theorem parse_eq_error (hd : Says q.units s d k)
    (h : d.value * k ≤ 0 ∨ q.most + 1 ≤ d.value * k) :
    q.parse s = .error (invalid q.key s) := by
  refine parse_refused fun n hread => ?_
  rcases h with h | h
  · obtain ⟨hsign, hpositive, _, _⟩ := (parse_eq_ok_iff_floor hd).mp hread
    have hunit : (0 : ℚ) < k := Nat.cast_pos.mpr (unit_bounds hd).1
    rw [Text.Decimal.value_of_not_negative hsign] at h
    have hzero : d.magnitude = 0 :=
      le_antisymm (nonpos_of_mul_nonpos_left h hunit) d.magnitude_nonneg
    exact hpositive.ne' (measured_zero hzero k)
  · have hclose := abs_le.mp (parse_close hd hread)
    have hmost : (n : ℚ) ≤ q.most := Nat.cast_le.mpr (le_most_of_parse hread)
    linarith [hclose.1]

/-- A text is refused, or it is a number with a unit and the number that is read is in range. Zero
is read of just those numbers that are positive and less than a half behind the product. -/
theorem parse_measures (q : Quantity) (s : String) :
    (q.parse s = .error (invalid q.key s) ∨ ∃ n ≤ q.most, q.parse s = .ok n) ∧
    (∀ n, q.parse s = .ok n → ∃ d k, Says q.units s d k) ∧
    ∀ d k, Says q.units s d k → Measures q s d k := by
  refine ⟨?_, fun n hread => exists_number (parse_eq_ok_iff.mp hread), fun d k hd => ?_⟩
  · by_cases hread : ∃ n, q.parse s = .ok n
    · obtain ⟨n, hread⟩ := hread
      exact .inr ⟨n, le_most_of_parse hread, hread⟩
    · exact .inl (parse_refused fun n hn => hread ⟨n, hn⟩)
  · exact {
      number := nearestOf_rounds d
      product := measured_rounds d k
      ok_iff := fun _ => parse_eq_ok_iff_floor hd
      zero_iff := parse_eq_zero_iff hd
      close := fun _ => parse_close hd
      accepted := parse_accepted hd
      refused := parse_eq_error hd }

/-- Of 1.8 volts 1800 millivolts are read, as near to what is written as is promised. -/
theorem parse_measures_volts : Says voltage.units "1.8 V" ⟨false, 18, 1⟩ 1000 ∧
    voltage.parse "1.8 V" = .ok 1800 ∧
    |(1800 : ℚ) - Text.Decimal.value ⟨false, 18, 1⟩ * (1000 : ℕ)| ≤ 1 / 2 + 1 / 10 ^ 5 := by
  have hreading : Says voltage.units "1.8 V" ⟨false, 18, 1⟩ 1000 :=
    ⟨by decide +kernel, by decide +kernel⟩
  have hread : voltage.parse "1.8 V" = .ok 1800 := by decide +kernel
  obtain ⟨_, _, hmeasures⟩ := parse_measures voltage "1.8 V"
  exact ⟨hreading, hread, by exact_mod_cast (hmeasures _ _ hreading).close 1800 hread⟩

theorem rounded_into_range : Parameters.voltage "0.4" = .ok 0 ∧
    Parameters.frequency "0.49" = .ok 0 ∧ Parameters.voltage "65535.4" = .ok 65535 := by
  decide +kernel

end Quantity
end Parameters
end NorFlash
