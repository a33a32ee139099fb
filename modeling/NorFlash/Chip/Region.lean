import NorFlash.Chip.EraseFunction

namespace NorFlash

/-- One more than the largest address. -/
def addressSpace : Nat := 0x100000000

/-- Equal blocks side by side, each erased by one instruction. Regions of one chip may overlap. -/
structure Region where
  start : Nat
  blockSize : Nat
  blockCount : Nat
  function : EraseFunction
  deriving DecidableEq, Repr

namespace Region

/-- A region without blocks, or with empty ones, takes no part in anything. -/
def active (r : Region) : Bool := r.blockSize != 0 && r.blockCount != 0

def stop (r : Region) : Nat := r.start + r.blockSize * r.blockCount

/-- The block that holds `addr`. -/
def blockIndexAt? (r : Region) (addr : Nat) : Option Nat :=
  if r.active && r.start ≤ addr && addr < r.stop then some ((addr - r.start) / r.blockSize)
  else none

/-- The block that starts at `addr`. -/
def blockIndexStartingAt? (r : Region) (addr : Nat) : Option Nat :=
  (r.blockIndexAt? addr).filter fun i => r.start + i * r.blockSize == addr

end Region
end NorFlash
