import Mathlib.Data.Nat.Bitwise
import Mathlib.Data.Prod.Lex
import NorFlash.Dediprog.Model

namespace NorFlash.Dediprog

namespace Firmware

/-- Each number is below 256. -/
def Fits (t : Nat × Nat × Nat) : Prop := t.1 < 0x100 ∧ t.2.1 < 0x100 ∧ t.2.2 < 0x100

instance (t : Nat × Nat × Nat) : Decidable (Fits t) :=
  inferInstanceAs (Decidable (t.1 < 0x100 ∧ t.2.1 < 0x100 ∧ t.2.2 < 0x100))

/-- The order of versions by their numbers: the major one decides, then the minor one. -/
def Older (t u : Nat × Nat × Nat) : Prop := Prod.Lex (· < ·) (Prod.Lex (· < ·) (· < ·)) t u

instance (t u : Nat × Nat × Nat) : Decidable (Older t u) :=
  inferInstanceAs (Decidable (Prod.Lex (· < ·) (Prod.Lex (· < ·) (· < ·)) t u))

theorem older_iff {t u : Nat × Nat × Nat} : Older t u ↔
    t.1 < u.1 ∨ t.1 = u.1 ∧ (t.2.1 < u.2.1 ∨ t.2.1 = u.2.1 ∧ t.2.2 < u.2.2) := by
  rw [Older, Prod.lex_def, Prod.lex_def]

end Firmware

/-- The way of talking that the numbers of a version ask for. -/
def Protocol.ofNumbers (m : Model) (t : Nat × Nat × Nat) : Protocol :=
  match m with
  | .sf100 | .sf200 => if Firmware.Older t (5, 5, 0) then v1 else v2
  | .sf600 =>
    if Firmware.Older t (6, 9, 0) then v1 else if Firmware.Older (7, 2, 21) t then v3 else v2
  | .sf700 | .sf600pg2 => v3
  | .unknown => unknown

namespace Firmware

variable {t u : Nat × Nat × Nat}

theorem or_mod_byte (a b : Nat) : (a ||| b) % 0x100 = (a % 0x100) ||| (b % 0x100) :=
  Nat.or_mod_two_pow (n := 8)

theorem or_div_byte (a b : Nat) : (a ||| b) / 0x100 = (a / 0x100) ||| (b / 0x100) :=
  Nat.or_div_two_pow (n := 8)

theorem or_div_bytes (a b : Nat) : (a ||| b) / 0x10000 = (a / 0x10000) ||| (b / 0x10000) :=
  Nat.or_div_two_pow (n := 16)

/-- A byte holds its own number and what runs over from the numbers below it. -/
theorem parts_encode (major minor patch : Nat) : parts (encode major minor patch) =
    ((major ||| minor / 0x100 ||| patch / 0x10000) % 0x100, (minor ||| patch / 0x100) % 0x100,
      patch % 0x100) := by
  have htop : encode major minor patch / 0x10000 % 0x100 =
      (major ||| minor / 0x100 ||| patch / 0x10000) % 0x100 := by
    have ⟨hmajor, hminor⟩ : major * 0x10000 % 0x100000000 / 0x10000 % 0x100 = major % 0x100 ∧
        minor * 0x100 % 0x100000000 / 0x10000 % 0x100 = minor / 0x100 % 0x100 :=
      ⟨by omega, by omega⟩
    simp only [encode, or_div_bytes, or_mod_byte, hmajor, hminor]
  have hmiddle : encode major minor patch / 0x100 % 0x100 = (minor ||| patch / 0x100) % 0x100 := by
    have ⟨hmajor, hminor⟩ : major * 0x10000 % 0x100000000 / 0x100 % 0x100 = 0 ∧
        minor * 0x100 % 0x100000000 / 0x100 % 0x100 = minor % 0x100 :=
      ⟨by omega, by omega⟩
    simp only [encode, or_div_byte, or_mod_byte, hmajor, hminor, Nat.zero_or]
  have hlow : encode major minor patch % 0x100 = patch % 0x100 := by
    have ⟨hmajor, hminor⟩ : major * 0x10000 % 0x100000000 % 0x100 = 0 ∧
        minor * 0x100 % 0x100000000 % 0x100 = 0 :=
      ⟨by omega, by omega⟩
    simp only [encode, or_mod_byte, hmajor, hminor, Nat.zero_or]
  exact Prod.ext htop (Prod.ext hmiddle hlow)

theorem fits_parts (version : Nat) : Fits (parts version) := by
  refine ⟨?_, ?_, ?_⟩ <;> exact Nat.mod_lt _ (by decide)

/-- Numbers come back as they were just when they fit. -/
theorem parts_encode_eq_iff : parts (encode t.1 t.2.1 t.2.2) = t ↔ Fits t := by
  constructor
  · intro h
    exact h ▸ fits_parts _
  · intro ⟨hmajor, hminor, hpatch⟩
    have hover : t.2.1 / 0x100 = 0 := Nat.div_eq_of_lt hminor
    have hover' : t.2.2 / 0x100 = 0 := Nat.div_eq_of_lt hpatch
    have hover'' : t.2.2 / 0x10000 = 0 := Nat.div_eq_of_lt (by omega)
    rw [parts_encode, hover, hover', hover'']
    simp only [Nat.or_zero, Nat.mod_eq_of_lt hmajor, Nat.mod_eq_of_lt hminor,
      Nat.mod_eq_of_lt hpatch]

theorem encode_eq_add (h : Fits t) :
    encode t.1 t.2.1 t.2.2 = 0x10000 * t.1 + (0x100 * t.2.1 + t.2.2) := by
  obtain ⟨hmajor, hminor, hpatch⟩ := h
  have ⟨hhigh, hmiddle⟩ : t.1 * 0x10000 % 0x100000000 = 0x10000 * t.1 ∧
      t.2.1 * 0x100 % 0x100000000 = 0x100 * t.2.1 := ⟨by omega, by omega⟩
  have hlow : 0x100 * t.2.1 ||| t.2.2 = 0x100 * t.2.1 + t.2.2 :=
    (Nat.two_pow_add_eq_or_of_lt (i := 8) hpatch t.2.1).symm
  have hsum : 0x100 * t.2.1 + t.2.2 < 0x10000 := by omega
  rw [encode, hhigh, hmiddle, Nat.or_assoc, hlow]
  exact (Nat.two_pow_add_eq_or_of_lt (i := 16) hsum t.1).symm

/-- Versions of numbers that fit are ordered as the numbers are. -/
theorem encode_lt_iff (ht : Fits t) (hu : Fits u) :
    encode t.1 t.2.1 t.2.2 < encode u.1 u.2.1 u.2.2 ↔ Older t u := by
  rw [encode_eq_add ht, encode_eq_add hu, older_iff]
  obtain ⟨hmajor, hminor, hpatch⟩ := ht
  obtain ⟨hmajor', hminor', hpatch'⟩ := hu
  omega

theorem encode_inj (ht : Fits t) (hu : Fits u) :
    encode t.1 t.2.1 t.2.2 = encode u.1 u.2.1 u.2.2 ↔ t = u := by
  constructor
  · intro h
    rw [← parts_encode_eq_iff.mpr ht, h, parts_encode_eq_iff.mpr hu]
  · rintro rfl
    rfl

theorem of_encode (h : Fits t) (m : Model) :
    Protocol.of m (encode t.1 t.2.1 t.2.2) = Protocol.ofNumbers m t := by
  have hbefore := fun {u} (hu : Fits u) => encode_lt_iff h hu
  have hafter : encode t.1 t.2.1 t.2.2 ≤ encode 7 2 21 ↔ ¬ Older (7, 2, 21) t := by
    rw [← not_lt]
    exact not_congr (encode_lt_iff (t := (7, 2, 21)) (by decide) h)
  have h55 := hbefore (u := (5, 5, 0)) (by decide)
  have h69 := hbefore (u := (6, 9, 0)) (by decide)
  cases m <;> simp only [Protocol.of, Protocol.ofNumbers, h55, h69, hafter, ite_not]

/-- The version of a device string gives its numbers back just when each is below 256. Among such
versions the words compare as the numbers do, with each other and with any version that decides
how to talk; other numbers run into the bytes above them. -/
theorem faithful_within_bytes {s : String} {t : Nat × Nat × Nat} (h : numbersOf? s = some t) :
    ∃ v, ofDeviceString? s = some v ∧
      parts v = ((t.1 ||| t.2.1 / 0x100 ||| t.2.2 / 0x10000) % 0x100,
        (t.2.1 ||| t.2.2 / 0x100) % 0x100, t.2.2 % 0x100) ∧
      (parts v = t ↔ Fits t) ∧
      (Fits t →
        (∀ m, Protocol.of m v = Protocol.ofNumbers m t) ∧
        (∀ u, Fits u → (v < encode u.1 u.2.1 u.2.2 ↔ Older t u)) ∧
        ∀ s' u v', numbersOf? s' = some u → Fits u → ofDeviceString? s' = some v' →
          (v < v' ↔ Older t u) ∧ (v = v' ↔ t = u)) := by
  have hread {s : String} {t : Nat × Nat × Nat} (h : numbersOf? s = some t) :
      ofDeviceString? s = some (encode t.1 t.2.1 t.2.2) := by rw [ofDeviceString?, h]; rfl
  refine ⟨encode t.1 t.2.1 t.2.2, hread h, parts_encode .., parts_encode_eq_iff, fun hfits => ?_⟩
  refine ⟨of_encode hfits, fun u hu => encode_lt_iff hfits hu, fun s' u v' hs' hu hv' => ?_⟩
  obtain rfl := Option.some.inj ((hread hs').symm.trans hv')
  exact ⟨encode_lt_iff hfits hu, encode_inj hfits hu⟩

/-- The first version for which an SF600 takes the third way of talking, and the one before. -/
theorem sf600_changes_protocol : ∃ v v', ofDeviceString? "SF600 V:7.2.22" = some v ∧
    ofDeviceString? "SF600 V:7.2.21" = some v' ∧ parts v = (7, 2, 22) ∧ v' < v ∧
    Protocol.of .sf600 v = .v3 ∧ Protocol.of .sf600 v' = .v2 := by
  have h : numbersOf? "SF600 V:7.2.22" = some (7, 2, 22) := by decide +kernel
  have h' : numbersOf? "SF600 V:7.2.21" = some (7, 2, 21) := by decide +kernel
  obtain ⟨v, hv, -, hparts, hfits⟩ := faithful_within_bytes h
  obtain ⟨v', hv', -, -, hfits'⟩ := faithful_within_bytes h'
  obtain ⟨hprotocol, -, -⟩ := hfits (by decide)
  obtain ⟨hprotocol', -, horder⟩ := hfits' (by decide)
  refine ⟨v, v', hv, hv', hparts.mpr (by decide), ?_, hprotocol .sf600, hprotocol' .sf600⟩
  exact ((horder _ _ v h (by decide) hv).1).mpr (by decide)

/-- A patch number of 256 makes the next minor version of it, and this talks in the second way
where the numbers ask for the first. -/
theorem patch_runs_over : numbersOf? "SF600 V:6.8.256" = some (6, 8, 256) ∧
    ofDeviceString? "SF600 V:6.8.256" = some (encode 6 9 0) ∧
    ofDeviceString? "SF600 V:6.9.0" = some (encode 6 9 0) ∧
    parts (encode 6 9 0) ≠ (6, 8, 256) ∧ Older (6, 8, 256) (6, 9, 0) ∧
    Protocol.of .sf600 (encode 6 9 0) = .v2 ∧ Protocol.ofNumbers .sf600 (6, 8, 256) = .v1 := by
  decide +kernel

end Firmware
end NorFlash.Dediprog
