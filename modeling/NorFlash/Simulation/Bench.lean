import NorFlash.Emulator.Basic
import NorFlash.Simulation.Rule

namespace NorFlash

/-- What a rule does with a command. -/
inductive Tamper where
  | fail (e : Error)
  /-- The receive buffer is filled with these bytes and `0xFF` beyond them. -/
  | reply (bytes : Bytes)
  /-- The command succeeds and never reaches the chip. -/
  | swallow

/-- The shape of a command that was sent. -/
structure Sent where
  opcode : UInt8
  address : Option Nat
  written : Nat
  wanted : Nat
  deriving DecidableEq, Repr

/-- What has passed over a bench. -/
structure Record where
  sent : Array Sent := #[]
  delays : Array Nat := #[]
  progress : Array Progress := #[]
  log : Log := {}

/-- An emulated chip whose commands rules can fail, answer or swallow. -/
structure Bench where
  chip : Emulator
  rules : List (Rule Command Tamper) := []
  record : Record := {}

namespace Bench

/-- `bytes` cut or filled up with `0xFF` to `n` bytes. -/
def answer (bytes : Bytes) (n : Nat) : Bytes := Bytes.overlayFront (Bytes.filled n 0xFF) bytes

/-- Lets the chip execute a command and tells of it. -/
def pass (c : Command) : Act Bench Stop Bytes := fun b =>
  match b with
  | ⟨chip, rules, ⟨sent, delays, progress, log⟩⟩ =>
    match chip.execute c with
    | (r, chip) => (r, ⟨chip, rules, ⟨sent, delays, progress, log.add (Emulator.notice c)⟩⟩)

def note (n : Notice) (b : Bench) : Bench :=
  match b with
  | ⟨chip, rules, ⟨sent, delays, progress, log⟩⟩ =>
    ⟨chip, rules, ⟨sent, delays, progress, log.add n⟩⟩

/-- Records a command and applies the rules to it. -/
def take (c : Command) (b : Bench) : Option Tamper × Bench :=
  match b with
  | ⟨chip, rules, ⟨sent, delays, progress, log⟩⟩ =>
    let (effect, rules) := Rule.fire rules c
    let sent := sent.push ⟨c.opcode, c.address, c.data.size, c.buffer.size⟩
    (effect, ⟨chip, rules, ⟨sent, delays, progress, log⟩⟩)

def execute (c : Command) : Act Bench Stop Bytes := fun b =>
  match take c b with
  | (some (.fail e), b) => (.error (.error e), b)
  | (some (.reply bytes), b) => (.ok (answer bytes c.buffer.size), b)
  | (some .swallow, b) => (.ok ByteArray.empty, b)
  | (none, b) => pass c b

def delay (microseconds : Nat) (b : Bench) : Bench :=
  match b with
  | ⟨chip, rules, ⟨sent, delays, progress, log⟩⟩ =>
    ⟨chip, rules, ⟨sent, delays.push microseconds, progress, log⟩⟩

def report (p : Progress) (b : Bench) : Bench :=
  match b with
  | ⟨chip, rules, ⟨sent, delays, progress, log⟩⟩ =>
    ⟨chip, rules, ⟨sent, delays, progress.push p, log⟩⟩

def programmer : Programmer Bench where
  maxRead b := b.chip.maxRead
  maxWrite b := b.chip.maxWrite
  execute := execute
  delay := delay
  report := report
  note := note

end Bench
end NorFlash
