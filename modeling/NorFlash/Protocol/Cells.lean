import NorFlash.Chip.EraseFunction
import NorFlash.Protocol.Status

namespace NorFlash.Programmer

variable {σ : Type} (p : Programmer σ)

def readFailedNotice (addr : Nat) (e : Error) : Notice :=
  .debug fun _ => s!"READ at {Text.address addr} failed: {e.message}"

/-- Reads into a buffer that one transaction can fill. -/
def readInto (addr : Nat) (buffer : Bytes) : Act σ Stop Bytes :=
  p.onError (p.send (.readAt Opcode.readData addr buffer)) (readFailedNotice addr)

/-- Microseconds between two looks at the status register while a program runs. -/
def programInterval : Nat := 10

def latchNotice (addr : Nat) : Notice :=
  .error fun _ => s!"Write enable latch not set before program at {Text.address addr}"

/-- Programs data that stays inside one page, and waits for the end. -/
def programPage (addr : Nat) (data : Bytes) : Act σ Stop Unit := do
  p.writeEnable
  if ← p.checkLatch then
    let _ ← p.send (.writeAt Opcode.pageProgram addr data)
    p.waitReady programInterval
  else
    p.tell (latchNotice addr)
    Act.fail (.error .writeProtected)

def partialChipNotice (f : EraseFunction) (addr len : Nat) : Notice :=
  .error fun _ => s!"Chip erase {Text.opcode f.opcode} asked to erase {Text.span addr (addr + len)}"

def eraseFailedNotice (f : EraseFunction) (addr : Nat) (e : Error) : Notice :=
  .error fun _ =>
    s!"Erase {Text.opcode f.opcode} failed during command execution at address " ++
      s!"{Text.address addr}: {e.message}"

/-- The command that erases the block at `addr`; for a whole chip it needs no address. -/
def eraseCommand (f : EraseFunction) (addr : Nat) : Command :=
  if f.erasesChip then .bare f.opcode else .eraseAt f.opcode addr

/-- Sends an erase command; whatever fails then is known by the block. -/
def sendErase (f : EraseFunction) (addr : Nat) : Act σ Stop Unit :=
  (p.onError (p.send (eraseCommand f addr)) (eraseFailedNotice f addr) >>= fun _ => pure ()).mapError
    fun
    | .error _ => .error (.erase (.commandFailed addr))
    | other => other

/-- Sets the latch for an erase that needs it. -/
def enableErase (f : EraseFunction) (addr : Nat) : Act σ Stop Unit := do
  if f.needsWriteEnable then
    p.writeEnable
    unless ← p.checkLatch do
      Act.fail (.error (.erase (.notWriteEnabled addr)))

/-- Erases the block `[addr, addr + len)` and waits for the end. Instructions for the whole chip
are refused for anything less. -/
def eraseBlock (f : EraseFunction) (addr len chipSize : Nat) : Act σ Stop Unit := do
  if f.erasesChip && (addr != 0 || len != chipSize) then
    p.tell (partialChipNotice f addr len)
    Act.fail (.error (.erase (.partialChip addr len)))
  else
    p.enableErase f addr
    p.sendErase f addr
    p.waitReady f.pollInterval

end NorFlash.Programmer
