import NorFlash.Chip.Region

namespace NorFlash

structure Block where
  region : Region
  index : Nat
  deriving DecidableEq, Repr

namespace Block

def start (b : Block) : Nat := (b.region.start + b.index * b.region.blockSize) % addressSpace

def size (b : Block) : Nat := b.region.blockSize

def stop (b : Block) : Nat := b.start + b.size

def function (b : Block) : EraseFunction := b.region.function

/-- Whether `[lo, hi)` lies inside the block. -/
def encloses (b : Block) (lo hi : Nat) : Bool := b.start ≤ lo && hi ≤ b.stop

end Block

namespace Region

/-- The block that holds the bus address `addr`. -/
def blockHolding? (r : Region) (addr : Nat) : Option Block :=
  if addr < addressSpace then (r.blockIndexAt? addr).map fun i => ⟨r, i⟩ else none

/-- The block that starts at the bus address `addr`. -/
def blockFrom? (r : Region) (addr : Nat) : Option Block :=
  if addr < addressSpace then (r.blockIndexStartingAt? addr).map fun i => ⟨r, i⟩ else none

theorem stop_of_blockFrom? {r : Region} {addr : Nat} {b : Block} (h : r.blockFrom? addr = some b) :
    addr < b.stop := by
  simp only [blockFrom?] at h
  split at h
  case isFalse => simp at h
  case isTrue hlt =>
    simp only [blockIndexStartingAt?, blockIndexAt?] at h
    split at h
    case isFalse => simp at h
    case isTrue hin =>
      simp only [Option.filter_some, beq_iff_eq] at h
      split at h
      case isFalse => simp at h
      case isTrue he =>
        simp only [Option.map_some, Option.some.injEq] at h
        subst h
        simp only [active, bne_iff_ne, Bool.and_eq_true, decide_eq_true_eq] at hin
        simp only [Block.stop, Block.start, Block.size, he, Nat.mod_eq_of_lt hlt]
        omega

end Region
end NorFlash
