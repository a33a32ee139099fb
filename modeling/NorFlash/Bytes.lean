namespace NorFlash

abbrev Bytes := ByteArray

/-- One way to compare buffers, also where another library brings a second. -/
instance : DecidableEq Bytes := ByteArray.instDecidableEq

namespace Bytes

/-- Appends `n` copies of `b`. -/
def pushFilled (b : UInt8) : Nat → Bytes → Bytes
  | 0, acc => acc
  | n + 1, acc => pushFilled b n (acc.push b)

def filled (n : Nat) (b : UInt8) : Bytes := pushFilled b n (ByteArray.emptyWithCapacity n)

def ofList (bs : List UInt8) : Bytes := bs.foldl ByteArray.push ByteArray.empty

/-- The bytes `[lo, hi)`, if the buffer has them all. -/
def slice? (b : Bytes) (lo hi : Nat) : Option Bytes :=
  if lo ≤ hi ∧ hi ≤ b.size then some (b.extract lo hi) else none

/-- The buffer with `d` written over it at `start`. -/
def overlay (b : Bytes) (start : Nat) (d : Bytes) : Bytes := d.copySlice 0 b start d.size

/-- The same, if `d` fits. -/
def overlay? (b : Bytes) (start : Nat) (d : Bytes) : Option Bytes :=
  if start + d.size ≤ b.size then some (overlay b start d) else none

/-- The buffer with the `n` bytes from `start` on set to `v`. -/
def fill (b : Bytes) (start n : Nat) (v : UInt8) : Bytes := overlay b start (filled n v)

/-- The first `n` bytes, or all of a shorter buffer. -/
def take (b : Bytes) (n : Nat) : Bytes := b.extract 0 n

/-- The bytes from `n` on. -/
def drop (b : Bytes) (n : Nat) : Bytes := b.extract n b.size

/-- `d` laid over the front of the buffer, which keeps its length. -/
def overlayFront (b d : Bytes) : Bytes :=
  if d.size = b.size then d else take d b.size ++ drop b d.size

def byteAt (b : Bytes) (i : Nat) : UInt8 := if h : i < b.size then b[i] else 0

/-- The buffer with one byte changed; a place outside it changes nothing. -/
def modifyAt (b : Bytes) (i : Nat) (f : UInt8 → UInt8) : Bytes :=
  if h : i < b.size then b.set i (f b[i]) else b

/-- Looks for a difference in the last `n` places before `i + n`. -/
def differenceFrom (a b : Bytes) : (n i : Nat) → Option Nat
  | 0, _ => none
  | n + 1, i => if byteAt a i == byteAt b i then differenceFrom a b n (i + 1) else some i

/-- The first place, inside the shorter buffer, where the two differ. -/
def firstDifference? (a b : Bytes) : Option Nat := differenceFrom a b (min a.size b.size) 0

/-- Equal length and no difference. -/
def same (a b : Bytes) : Bool := a.size == b.size && (firstDifference? a b).isNone

end Bytes
end NorFlash
