import NorFlash.Files.Store
import NorFlash.Programmer
import NorFlash.Session.Parameters
import NorFlash.Session.Selection

namespace NorFlash

structure Driver (ω μ : Type) where
  name : String
  /-- Opens the programmer from its whole parameter string. -/
  connect : String → Act ω Failure μ

/-- Programmers that can be opened, the chips that are known, and files. -/
structure Workshop (ω μ : Type) where
  /-- In the order in which they are tried. -/
  drivers : List (Driver ω μ)
  programmer : Programmer (μ × ω)
  /-- The end of an open programmer. -/
  close : μ → Act ω Error Unit
  catalog : List Chip
  files : FileStore ω

/-- An open programmer, with the driver and the parameters that opened it. -/
structure Opened (μ : Type) where
  driver : String
  args : String
  handle : μ

namespace Workshop

variable {ω μ : Type} (shop : Workshop ω μ)

def note (n : Notice) : ω → ω := shop.files.note n

def tell {ε : Type} (n : Notice) : Act ω ε Unit := Act.modify (shop.note n)

def unusableNotice (name : String) (f : Failure) : Notice :=
  .debug fun _ => s!"Programmer {name} not usable: {f.message}"

/-- Opens a programmer, or tells why it is none. -/
def attempt (args : String) (d : Driver ω μ) : Act ω Failure (Option μ) := fun w =>
  match d.connect args w with
  | (.ok handle, w) => (.ok (some handle), w)
  | (.error f, w) => (.ok none, shop.note (unusableNotice d.name f) w)

/-- The first programmer that opens. -/
def detect (args : String) : Act ω Failure (Opened μ) := do
  match ← Act.first (shop.attempt args) shop.drivers with
  | none => Act.fail (.notFound .programmer)
  | some (d, handle) =>
    shop.tell (.info fun _ => s!"Detected programmer {d.name}")
    return ⟨d.name, args, handle⟩

def openNamed (args name : String) : Act ω Failure (Opened μ) :=
  match shop.drivers.find? fun d => d.name == name with
  | none => Act.fail (.unknownProgrammer name)
  | some d => do
    let handle ← d.connect args
    shop.tell (.info fun _ => s!"Using programmer {d.name}")
    return ⟨d.name, args, handle⟩

/-- Opens the programmer that a parameter string names. -/
def openProgrammer (args : String) : Act ω Failure (Opened μ) :=
  let name := Parameters.programmerName args
  if name == automatic then shop.detect args else shop.openNamed args name

end Workshop
end NorFlash
