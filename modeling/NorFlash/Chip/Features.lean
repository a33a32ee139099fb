import NorFlash.Numeric.Total

namespace NorFlash

structure Features where
  /-- The status register is written after the usual write enable. -/
  wrsrWren : Bool := false
  /-- The status register is written after a write enable of its own. -/
  wrsrEwsr : Bool := false
  /-- There is a one-time programmable area. -/
  otp : Bool := false
  /-- All phases can run on four lines. -/
  qpi : Bool := false
  deriving DecidableEq, Repr

namespace Features

/-- Name, bit number and value of each flag, in bit order. -/
def flags (f : Features) : List (String × Nat × Bool) :=
  [("WRSR_WREN", 0, f.wrsrWren), ("WRSR_EWSR", 1, f.wrsrEwsr), ("OTP", 10, f.otp),
    ("QPI", 11, f.qpi)]

/-- The names of the flags that are set. -/
def names (f : Features) : List String := (f.flags.filter (·.2.2)).map (·.1)

def toBits (f : Features) : Nat := total (f.flags.map fun x => if x.2.2 then Nat.pow 2 x.2.1 else 0)

/-- Bits without a meaning are dropped. -/
def ofBits (n : Nat) : Features := ⟨n.testBit 0, n.testBit 1, n.testBit 10, n.testBit 11⟩

end Features
end NorFlash
