import NorFlash.Bytes
import NorFlash.Error
import NorFlash.Log.Notice

namespace NorFlash

structure Command where
  opcode : UInt8
  address : Option Nat := none
  /-- What is sent after opcode and address. -/
  data : Bytes := ByteArray.empty
  /-- The receive buffer as it stands before the transaction; its length is what is asked for. -/
  buffer : Bytes := ByteArray.empty

namespace Command

def addressBytes : Nat := 3

/-- The low three bytes of an address, most significant first. -/
def encodeAddress (addr : Nat) : List UInt8 :=
  [(addr / 0x10000).toUInt8, (addr / 0x100).toUInt8, addr.toUInt8]

def header (c : Command) : List UInt8 :=
  match c.address with
  | none => [c.opcode]
  | some addr => c.opcode :: encodeAddress addr

def headerLength (c : Command) : Nat := if c.address.isSome then 1 + addressBytes else 1

/-- Everything that is sent. -/
def wire (c : Command) : Bytes := Bytes.ofList c.header ++ c.data

def hasRead (c : Command) : Bool := c.buffer.size != 0

def hasWrite (c : Command) : Bool := c.data.size != 0

/-- Bytes sent and bytes asked for. -/
def totalBytes (c : Command) : Nat := c.headerLength + c.data.size + c.buffer.size

/-- A command that only names its opcode. -/
def bare (opcode : UInt8) : Command := { opcode }

/-- Reads a register into a buffer. -/
def readRegister (opcode : UInt8) (buffer : Bytes) : Command := { opcode, buffer }

/-- Reads from an address into a buffer. -/
def readAt (opcode : UInt8) (addr : Nat) (buffer : Bytes) : Command :=
  { opcode, address := some addr, buffer }

/-- Writes data to an address. -/
def writeAt (opcode : UInt8) (addr : Nat) (data : Bytes) : Command :=
  { opcode, address := some addr, data }

/-- Erases the block at an address. -/
def eraseAt (opcode : UInt8) (addr : Nat) : Command := { opcode, address := some addr }

end Command

/-- Refuses a transfer that moved fewer bytes than it should. -/
def checkTransfer (requested moved : Nat) : Except Error Unit :=
  if moved < requested then .error .shortTransfer else .ok ()

/-- What checking a transfer tells. -/
def transferNotices (requested moved : Nat) : List Notice :=
  if moved < requested then
    [.debug fun _ => s!"Short SPI transfer: {moved} of {requested} bytes"]
  else []

end NorFlash
