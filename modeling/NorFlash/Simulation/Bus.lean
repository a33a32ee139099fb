import NorFlash.Emulator.Basic

namespace NorFlash.Emulator

/-- Instructions that are followed by an address. -/
def takesAddress (opcode : UInt8) : Bool :=
  [Opcode.readData, Opcode.pageProgram, Opcode.readManufacturer, Opcode.readSignature].contains
      opcode ||
    (EraseFunction.ofOpcode? opcode).any fun f => !f.erasesChip

/-- The command that bytes on the bus stand for, with as many bytes to receive. -/
def commandOf (sent : Bytes) (want : Nat) : Command :=
  let opcode := sent.byteAt 0
  let at' (i : Nat) : Nat := (sent.byteAt i).toNat
  let buffer := Bytes.filled want 0xFF
  if 4 ≤ sent.size && takesAddress opcode then
    { opcode, address := some (at' 1 * 0x10000 + at' 2 * 0x100 + at' 3), data := sent.drop 4, buffer }
  else { opcode, data := sent.drop 1, buffer }

/-- One transaction: what is received, and the chip afterwards. A refused command leaves the bus
floating. -/
def transact (c : Command) (e : Emulator) : Bytes × Emulator :=
  match e.execute c with
  | (.ok reply, e) => (c.buffer.overlayFront reply, e)
  | (.error _, e) => (c.buffer, e)

end NorFlash.Emulator
