import NorFlash.Spi.Opcode

namespace NorFlash

inductive EraseFunction where
  | erase20 | erase50 | erase52 | erase60 | erase62 | erase81
  | eraseC4 | eraseC7 | eraseD7 | eraseD8 | eraseDB
  deriving DecidableEq, Repr

namespace EraseFunction

/-- In opcode order. -/
def all : List EraseFunction :=
  [erase20, erase50, erase52, erase60, erase62, erase81, eraseC4, eraseC7, eraseD7, eraseD8,
    eraseDB]

def opcode : EraseFunction → UInt8
  | erase20 => 0x20 | erase50 => 0x50 | erase52 => 0x52 | erase60 => 0x60 | erase62 => 0x62
  | erase81 => 0x81 | eraseC4 => 0xC4 | eraseC7 => 0xC7 | eraseD7 => 0xD7 | eraseD8 => 0xD8
  | eraseDB => 0xDB

def ofOpcode? (b : UInt8) : Option EraseFunction := all.find? fun f => f.opcode == b

/-- Microseconds between two looks at the status register while the erase runs. -/
def pollInterval : EraseFunction → Nat
  | erase20 => 10000
  | erase50 | erase81 | eraseDB => 1000
  | erase52 | eraseD7 | eraseD8 | erase62 => 100000
  | eraseC4 => 500000
  | erase60 | eraseC7 => 1000000

def needsWriteEnable : EraseFunction → Bool
  | erase50 | erase81 => false
  | _ => true

/-- Whether it erases the whole chip and takes no address. -/
def erasesChip : EraseFunction → Bool
  | erase60 | erase62 | eraseC7 => true
  | _ => false

theorem ofOpcode?_opcode (f : EraseFunction) : ofOpcode? f.opcode = some f := by
  cases f <;> rfl

end EraseFunction
end NorFlash
