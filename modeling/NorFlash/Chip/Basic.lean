import NorFlash.Chip.Features
import NorFlash.Chip.Region
import NorFlash.Error
import NorFlash.Log.Notice

namespace NorFlash

/-- How a chip identifies itself. -/
inductive ProbeMethod where
  | rdid | rdid4 | rems | res1 | res2 | res3
  deriving DecidableEq, Repr

def ProbeMethod.name : ProbeMethod → String
  | .rdid => "rdid" | .rdid4 => "rdid4" | .rems => "rems"
  | .res1 => "res1" | .res2 => "res2" | .res3 => "res3"

structure Chip where
  /-- The short name that selects the chip. -/
  id : String
  vendor : String
  name : String
  manufacturer : Nat
  model : Nat
  size : Nat
  pageSize : Nat
  features : Features
  voltageMin : Nat
  voltageMax : Nat
  probe : ProbeMethod
  regions : List Region
  deriving DecidableEq, Repr

namespace Chip

/-- A chip declares at most this many regions. -/
def maxRegions : Nat := 6

/-- The model that stands for every model of a manufacturer. -/
def anyModel : Nat := 0xFFFF

/-- The manufacturer that stands for every manufacturer. -/
def anyManufacturer : Nat := 0xFFFF

def activeRegions (c : Chip) : List Region := c.regions.filter Region.active

/-- Whether the identification read from a bus is this chip's. A chip of any manufacturer matches
all but the `0xFF` of an empty bus. -/
def matchesIds (c : Chip) (id1 id2 : Nat) : Bool :=
  id1 == c.manufacturer && (id2 == c.model || c.model == anyModel) ||
    c.manufacturer == anyManufacturer && id1 != 0xFF

def supportsVoltage (c : Chip) (millivolts : Nat) : Bool :=
  c.voltageMin ≤ millivolts && millivolts ≤ c.voltageMax

/-- Whether the range lies inside the chip. -/
def holds (c : Chip) (addr len : Nat) : Bool := addr + len ≤ c.size

def checkRange (c : Chip) (addr len : Nat) : Except Error Unit :=
  if c.holds addr len then .ok () else .error .addressOutOfBounds

def outsideNotice (c : Chip) (addr len : Nat) : Notice :=
  .error fun _ => s!"Range {Text.address addr}+0x{Text.hex 0 len} is outside the {c.size} byte chip"

/-- What checking a range tells. -/
def rangeNotices (c : Chip) (addr len : Nat) : List Notice :=
  if c.holds addr len then [] else [c.outsideNotice addr len]

end Chip
end NorFlash
