import NorFlash.Programmer
import NorFlash.Spi.Opcode

namespace NorFlash.Programmer

variable {σ : Type} (p : Programmer σ)

def readStatus : Act σ Stop UInt8 := do
  let reply ← p.send (.readRegister Opcode.readStatus (Bytes.filled 1 0))
  return Bytes.byteAt reply 0

def writeEnable : Act σ Stop Unit := do
  let _ ← p.send (.bare Opcode.writeEnable)

/-- Whether the write enable latch is set. -/
def checkLatch : Act σ Stop Bool := do
  let status ← p.readStatus
  return status &&& Opcode.latchBit != 0

/-- Asks for the status up to so many times, waiting after each answer that says busy. -/
def pollReady (interval : Nat) : Nat → σ → Except Stop Unit × σ
  | 0, s => (.error .stalled, s)
  | polls + 1, s =>
    match p.readStatus s with
    | (.ok status, s') =>
      if status &&& Opcode.busyBit == 0 then (.ok (), s')
      else pollReady interval polls (p.delay interval s')
    | (.error e, s') => (.error e, s')

/-- Waits until the chip is ready. Nothing but readiness or a failed command ends the wait, as far
as the programmer's patience goes. -/
def waitReady (interval : Nat) : Act σ Stop Unit := p.pollReady interval p.patience

end NorFlash.Programmer
