import NorFlash.Protocol.Identification
import NorFlash.Session.Failure

namespace NorFlash

/-- The name that stands for a search. -/
def automatic : String := "automatic"

/-- The first chip with this short name or model name. -/
def findChip? (chips : List Chip) (name : String) : Option Chip := chips.find? (·.isNamed name)

namespace Programmer

variable {σ : Type} (p : Programmer σ)

def chipNotice (verb : String) (c : Chip) : Notice :=
  .info fun _ => s!"{verb} {c.vendor} flash chip \"{c.name}\" ({c.size / 1024} kB)"

def noAnswerNotice (c : Chip) : Notice :=
  .error fun _ => s!"Chip {c.id} did not answer its {c.probe.name} probe"

/-- Asks whether a chip is on the bus. -/
def present (c : Chip) : Act σ (Halt Failure) Bool := (p.probeChip c).mapError (Halt.map .core)

/-- The first of some chips that answers its own probe. -/
def detectChip (chips : List Chip) : Act σ (Halt Failure) Chip := do
  let found ← Act.first (fun c => do return if ← p.present c then some () else none) chips
  match found with
  | none => Act.fail (.error (.notFound .chip))
  | some (c, ()) =>
    Act.modify (p.note (chipNotice "Found" c))
    return c

/-- A chip by its name, which must answer its own probe. -/
def namedChip (chips : List Chip) (name : String) : Act σ (Halt Failure) Chip :=
  match findChip? chips name with
  | none => Act.fail (.error (.unknownChip name))
  | some c => do
    if ← p.present c then
      Act.modify (p.note (chipNotice "Using" c))
      return c
    else
      Act.modify (p.note (noAnswerNotice c))
      Act.fail (.error (.notFound .chip))

def selectChip (chips : List Chip) (name : String) : Act σ (Halt Failure) Chip :=
  if name == automatic then p.detectChip chips else p.namedChip chips name

end Programmer
end NorFlash
