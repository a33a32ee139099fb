import NorFlash.Bytes

namespace NorFlash.Text

def replacement : Char := Char.ofNat 0xFFFD

/-- What the first byte of a character of several bytes says: the range of the second byte, how
many bytes follow, and its own bits. -/
structure Lead where
  low : Nat
  high : Nat
  follow : Nat
  bits : Nat

def lead? (b : Nat) : Option Lead :=
  if 0xC2 ≤ b ∧ b ≤ 0xDF then some ⟨0x80, 0xBF, 1, b - 0xC0⟩
  else if b = 0xE0 then some ⟨0xA0, 0xBF, 2, 0⟩
  else if b = 0xED then some ⟨0x80, 0x9F, 2, 0xD⟩
  else if 0xE1 ≤ b ∧ b ≤ 0xEF then some ⟨0x80, 0xBF, 2, b - 0xE0⟩
  else if b = 0xF0 then some ⟨0x90, 0xBF, 3, 0⟩
  else if 0xF1 ≤ b ∧ b ≤ 0xF3 then some ⟨0x80, 0xBF, 3, b - 0xF0⟩
  else if b = 0xF4 then some ⟨0x80, 0x8F, 3, 4⟩
  else none

/-- A character that is being read: what is left of its lead and the bits so far. -/
structure Pending where
  low : Nat
  high : Nat
  follow : Nat
  bits : Nat

/-- Reads on after a byte that starts a character or stands alone. -/
def startByte (b : Nat) : Option Pending × List Char :=
  if b < 0x80 then (none, [Char.ofNat b])
  else match lead? b with
    | some l => (some ⟨l.low, l.high, l.follow, l.bits⟩, [])
    | none => (none, [replacement])

/-- One byte: the character that is then being read, and the characters that are complete. -/
def lossyStep (p : Option Pending) (b : Nat) : Option Pending × List Char :=
  match p with
  | none => startByte b
  | some ⟨low, high, follow, bits⟩ =>
    if low ≤ b ∧ b ≤ high then
      let bits := bits * 64 + (b - 0x80)
      if follow ≤ 1 then (none, [Char.ofNat bits]) else (some ⟨0x80, 0xBF, follow - 1, bits⟩, [])
    else
      let (p, cs) := startByte b
      (p, replacement :: cs)

def lossyFrom (p : Option Pending) : List UInt8 → List Char
  | [] => if p.isSome then [replacement] else []
  | b :: bs =>
    let (p, cs) := lossyStep p b.toNat
    cs ++ lossyFrom p bs

/-- The characters that the bytes spell. -/
def lossy (bs : Bytes) : List Char := lossyFrom none bs.toList

end NorFlash.Text
