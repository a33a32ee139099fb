import NorFlash.Chip.Basic

namespace NorFlash

/-- A size and its unit. -/
inductive Size where
  | bytes (n : Nat)
  | kib (n : Nat)
  | mib (n : Nat)
  deriving DecidableEq, Repr

/-- The size in bytes, if it fits 32 bits. -/
def Size.toBytes? (s : Size) : Option Nat :=
  let n := match s with
    | bytes n => n
    | kib n => n * 1024
    | mib n => n * (1024 * 1024)
  if n < 0x100000000 then some n else none

namespace VendorFile

/-- One more than the largest number of 32 bits. -/
def wordBound : Nat := 0x100000000

structure RegionDefinition where
  start : Nat
  size : Size
  count : Nat
  opcode : UInt8
  deriving DecidableEq, Repr

structure ChipDefinition where
  id : String
  name : String
  deviceId : Nat
  totalSize : Size
  pageSize : Nat
  probe : ProbeMethod
  features : Features
  voltageMin : Nat
  voltageMax : Nat
  regions : List RegionDefinition
  deriving DecidableEq, Repr

structure VendorDefinition where
  vendor : String
  manufacturerId : Nat
  chips : List ChipDefinition
  deriving DecidableEq, Repr

/-- A reader of texts: what a text defines, if it is that of a vendor file. -/
abbrev Parser : Type := String → Option VendorDefinition

end VendorFile
end NorFlash
