import NorFlash.Flash.Write
import NorFlash.Session.Image
import NorFlash.Session.Workshop

namespace NorFlash

/-- One programmer at a time, the chip that was found on it, and the way to write. -/
structure Session (μ : Type) where
  programmer : Option (Opened μ) := none
  chip : Option Chip := none
  strategy : Strategy := .default

namespace Session

variable {ω μ : Type} (shop : Workshop ω μ)

/-- What a session does, to itself and to the workshop. -/
abbrev Step (ω μ α : Type) : Type := Act (Session μ × ω) (Halt Failure) α

/-- What is done with an open programmer. -/
abbrev Work (ω μ α : Type) : Type := Act (μ × ω) (Halt Failure) α

def tell (n : Notice) : Step ω μ Unit := Act.modify fun (s, w) => (s, shop.note n w)

/-- Work that does not need the programmer. -/
def aside {α : Type} (x : Act ω Failure α) : Work ω μ α := fun (h, w) =>
  match x w with
  | (.ok a, w) => (.ok a, (h, w))
  | (.error f, w) => (.error (.error f), (h, w))

def chipWork {α : Type} (x : Act (μ × ω) Stop α) : Work ω μ α := x.mapError (Halt.map .core)

/-- Works with the open programmer, given its parameters. -/
def withProgrammer {α : Type} (x : String → Work ω μ α) : Step ω μ α := fun
  | (⟨none, chip, strategy⟩, w) => (.error (.error .noProgrammer), (⟨none, chip, strategy⟩, w))
  | (⟨some ⟨driver, args, handle⟩, chip, strategy⟩, w) =>
    match x args (handle, w) with
    | (r, (handle, w)) => (r, (⟨some ⟨driver, args, handle⟩, chip, strategy⟩, w))

/-- Works with the open programmer and the chip on it. -/
def withChip {α : Type} (x : Chip → Work ω μ α) : Step ω μ α := fun
  | (⟨some o, some chip, strategy⟩, w) =>
    withProgrammer (fun _ => x chip) (⟨some o, some chip, strategy⟩, w)
  | (⟨some o, none, strategy⟩, w) => (.error (.error .noChip), (⟨some o, none, strategy⟩, w))
  | (⟨none, chip, strategy⟩, w) => (.error (.error .noProgrammer), (⟨none, chip, strategy⟩, w))

def shutdownNotice (driver : String) : Notice :=
  .debug fun _ => s!"Shutting down programmer {driver}"

/-- Ends the open programmer, if there is one. -/
def shutdown : Step ω μ Unit := fun
  | (⟨none, chip, strategy⟩, w) => (.ok (), (⟨none, chip, strategy⟩, w))
  | (⟨some o, chip, strategy⟩, w) =>
    match shop.close o.handle (shop.note (shutdownNotice o.driver) w) with
    | (.ok (), w) => (.ok (), (⟨none, chip, strategy⟩, w))
    | (.error e, w) => (.error (.error (.core e)), (⟨none, chip, strategy⟩, w))

/-- Opens another programmer in the place of the one before. -/
def setProgrammer (args : String) : Step ω μ Unit := do
  shutdown shop
  Act.modify fun (s, w) => ({ s with chip := none }, w)
  fun (s, w) =>
    match shop.openProgrammer args w with
    | (.ok o, w) => (.ok (), ({ s with programmer := some o }, w))
    | (.error f, w) => (.error (.error f), (s, w))

/-- The end of a session. -/
def drop (s : Session μ) (w : ω) : ω :=
  match shutdown shop (s, w) with
  | (.error (.error f), (_, w)) =>
    shop.note (.error fun _ => s!"Programmer shutdown failed: {f.message}") w
  | (_, (_, w)) => w

def voltageNotice (c : Chip) (millivolts : Nat) : Notice :=
  .warn fun _ =>
    s!"{c.name} runs at {c.voltageMin}-{c.voltageMax} mV, programmer supplies {millivolts} mV"

/-- Warns of a voltage that is none of the chip's. -/
def checkVoltage (args : String) (c : Chip) : Act ω Failure Unit :=
  match Parameters.value? args "voltage" with
  | none => pure ()
  | some v => do
    let millivolts ← Act.ofExcept (Parameters.voltage v)
    unless c.supportsVoltage millivolts do
      shop.tell (voltageNotice c millivolts)

/-- Selects the chip on the open programmer, by name or by a search. -/
def setChip (name : String) : Step ω μ Unit := do
  let chip ← withProgrammer fun args => do
    let chip ← shop.programmer.selectChip shop.catalog name
    aside (checkVoltage shop args chip)
    return chip
  Act.modify fun (s, w) => ({ s with chip := some chip }, w)

def setStrategy (x : Strategy) : Step ω μ Unit := do
  tell shop (.debug fun _ => s!"Write strategy: {x.name}")
  Act.modify fun (s, w) => ({ s with strategy := x }, w)

def say (n : Notice) : Work ω μ Unit := aside (shop.tell n)

/-- Dumps the whole chip into a file. -/
def readToFile (path : String) : Step ω μ Unit := withChip fun chip => do
  say shop (.info fun _ => s!"Reading flash to {path}")
  let data ← chipWork (shop.programmer.readChip chip)
  aside (Image.save shop.files path data)
  say shop (.info fun _ => s!"Read {data.size} bytes into {path}")

def writingNotice (path : String) (n : Nat) (x : Strategy) : Notice :=
  .info fun _ => s!"Writing {n} bytes from {path} ({x.name})"

def writtenNotice (path : String) (s : WriteStats) : Notice :=
  .info fun _ =>
    if s.modified then
      s!"Wrote {s.written} bytes, {s.erases} erases ({s.erased} bytes), {s.skipped} blocks unchanged"
    else s!"Chip content identical to {path}, nothing written"

def writeWork (path : String) (x : Strategy) (chip : Chip) : Work ω μ WriteStats := do
  let data ← aside (Image.load shop.files path chip.size)
  say shop (writingNotice path data.size x)
  let stats ← chipWork (shop.programmer.write chip x 0 data)
  say shop (writtenNotice path stats)
  return stats

/-- Writes a file to the chip, from address zero on. -/
def writeFromFile (path : String) : Step ω μ WriteStats := do
  let x ← Act.read fun (s, _) => s.strategy
  withChip (writeWork shop path x)

def verdictNotices (path : String) : Verdict → List Notice
  | .agrees => [.info fun _ => s!"Verification of chip against {path} success."]
  | .differs addr expected found =>
    [.info fun _ => s!"Verification of chip against {path} failure.",
      .debug fun _ =>
        s!"First difference at {Text.address addr}: expected {Text.opcode expected}, " ++
          s!"found {Text.opcode found}"]

/-- Compares the chip with a file. -/
def verifyFile (path : String) : Step ω μ Verdict := withChip fun chip => do
  let expected ← aside (Image.load shop.files path chip.size)
  let verdict ← chipWork (shop.programmer.verify chip 0 expected)
  Act.modify fun (h, w) => (h, (verdictNotices path verdict).foldl (fun w n => shop.note n w) w)
  return verdict

end Session
end NorFlash
