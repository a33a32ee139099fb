import NorFlash.Text.Numeral

namespace NorFlash

/-- What can go wrong with one erase command; addresses name the block. -/
inductive EraseFailure where
  | commandFailed (addr : Nat)
  | notWriteEnabled (addr : Nat)
  /-- A chip erase was asked for less than the whole chip. -/
  | partialChip (addr len : Nat)
  deriving DecidableEq, Repr

inductive Error where
  | transferFailed
  | opcodeNotSupported
  /-- No block covers the address. -/
  | noCoverage (addr : Nat)
  /-- The blocks `[start, stop)` do not match the wanted range. -/
  | notExact (start stop : Nat)
  | deviceNotFound
  | erase (failure : EraseFailure)
  | timeout
  | shortTransfer
  | invalidArgument
  | transferSizeUnspecified
  | addressOutOfBounds
  | writeProtected
  | programmer
  deriving DecidableEq, Repr

def EraseFailure.message : EraseFailure → String
  | .commandFailed addr => s!"erase command failed at address {Text.address addr}"
  | .notWriteEnabled addr => s!"erase at {Text.address addr} refused: write enable latch not set"
  | .partialChip addr len => s!"chip erase cannot erase {Text.span addr (addr + len)}"

def Error.message : Error → String
  | .transferFailed => "SPI transfer failed"
  | .opcodeNotSupported => "SPI opcode not supported by programmer"
  | .noCoverage addr => s!"no erase block covers address {Text.address addr}"
  | .notExact start stop => s!"erase blocks {Text.span start stop} do not fit the requested range"
  | .deviceNotFound => "no such device"
  | .erase failure => failure.message
  | .timeout => "operation timed out"
  | .shortTransfer => "short transfer"
  | .invalidArgument => "invalid argument"
  | .transferSizeUnspecified => "programmer did not declare a maximum transfer size"
  | .addressOutOfBounds => "address out of bounds"
  | .writeProtected => "flash chip is write protected"
  | .programmer => "programmer error"

end NorFlash
