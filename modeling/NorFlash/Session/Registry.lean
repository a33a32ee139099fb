import NorFlash.Dediprog.Device
import NorFlash.Emulator.Image
import NorFlash.Session.Workshop
import NorFlash.Spidev.Device

namespace NorFlash

/-- What the built-in programmers stand on. -/
structure Equipment (ω : Type) where
  files : FileStore ω
  usb : UsbHost ω
  spidev : SpidevHost ω
  report : Progress → ω → ω

inductive DriverKind where
  | spidev | dediprog | dummy
  deriving DecidableEq, Repr

namespace DriverKind

/-- In the order in which they are tried. -/
def all : List DriverKind := [spidev, dediprog, dummy]

def name : DriverKind → String
  | spidev => "linux_spi"
  | dediprog => "dediprog"
  | dummy => "dummy"

def description : DriverKind → String
  | spidev => "Linux SPI device via spidev (dev=/dev/spidevX.Y,hz=<freq>,mode=<0-3>)"
  | dediprog =>
    "Dediprog SF100/SF200/SF600/SF700 (voltage=<1.8V|2.5V|3.5V>,spispeed=<24M..375k>," ++
      "device=<n>,target=<1|2>)"
  | dummy => "In-memory flash emulator (chip=<name>,image=<file>,busy=<polls>)"

def ofName? (s : String) : Option DriverKind := all.find? fun k => k.name == s

/-- The driver as it is shown to somebody who looks for trouble. -/
def shown (k : DriverKind) : String := "ProgrammerEntry \x7b name: " ++ Text.escaped k.name ++ " \x7d"

end DriverKind

/-- An open programmer. -/
inductive Handle where
  /-- An emulated chip, and the file that its cells are saved to. -/
  | dummy (chip : Emulator) (image : Option String)
  | dediprog (device : Dediprog)
  | spidev (bus : Spidev)

namespace Equipment

variable {ω : Type} (eq : Equipment ω)

def defaultChip : String := "w25q64w"

def busyPolls (args : String) : Except Failure Nat :=
  match Parameters.value? args "busy" with
  | none => .ok 0
  | some v =>
    match Text.natural? 0x100000000 v with
    | some n => .ok n
    | none => .error (Parameters.invalid "busy" v)

/-- The emulated chip that the parameters ask for, before its image is loaded. -/
def emulator (catalog : List Chip) (args : String) : Except Failure Emulator := do
  let name := (Parameters.value? args "chip").getD defaultChip
  match findChip? catalog name with
  | none => .error (.unknownChip name)
  | some chip =>
    let busyPolls ← busyPolls args
    .ok { Emulator.ofChip chip with busyPolls }

def openDummy (catalog : List Chip) (args : String) : Act ω Failure Handle := do
  let e ← Act.ofExcept (emulator catalog args)
  let id := e.chip.id
  Act.modify (eq.files.note (.debug fun _ => s!"dummy: emulating {id}"))
  match Parameters.value? args "image" with
  | none => return .dummy e none
  | some path =>
    let e ← (e.loadImage eq.files path).mapError .core
    return .dummy e (some path)

def spidevConfig (args : String) : Except Failure Spidev.Config := do
  match Parameters.value? args "dev" with
  | none =>
    .error (.programmer DriverKind.spidev.name "no device specified, use dev=/dev/spidevX.Y")
  | some device =>
    let c : Spidev.Config := { device }
    let c ← match Parameters.value? args "hz" with
      | none => pure c
      | some v => (Parameters.frequency v).map fun hertz => { c with hertz }
    match Parameters.value? args "mode" with
    | none => .ok c
    | some v =>
      match Text.natural? 0x100 v with
      | some mode => .ok { c with mode }
      | none => .error (Parameters.invalid "mode" v)

def openSpidev (args : String) : Act ω Failure Handle := do
  let c ← Act.ofExcept (spidevConfig args)
  let s ← (Spidev.openWith eq.spidev c).mapError fun f =>
    .programmer DriverKind.spidev.name f.message
  return .spidev s

def openDediprog (args : String) : Act ω Failure Handle := do
  let c ← Act.ofExcept (Dediprog.Config.ofArgs args)
  let d ← (Dediprog.openWith eq.usb c).mapError fun f =>
    .programmer DriverKind.dediprog.name f.message
  Act.modify (eq.files.note (.debug fun _ => s!"dediprog: {d.deviceString}"))
  return .dediprog d

def connect (catalog : List Chip) : DriverKind → String → Act ω Failure Handle
  | .spidev => eq.openSpidev
  | .dediprog => eq.openDediprog
  | .dummy => eq.openDummy catalog

def usbProgrammer : Programmer (Dediprog × ω) := Dediprog.programmer eq.usb eq.report

def busProgrammer : Programmer (Spidev × ω) := Spidev.programmer eq.spidev eq.report

def execute (c : Command) : Act (Handle × ω) Stop Bytes := fun
  | (.dummy e image, w) =>
    match e.execute c with
    | (r, e) => (r, (.dummy e image, eq.files.note (Emulator.notice c) w))
  | (.dediprog d, w) =>
    match eq.usbProgrammer.execute c (d, w) with
    | (r, (d, w)) => (r, (.dediprog d, w))
  | (.spidev s, w) =>
    match eq.busProgrammer.execute c (s, w) with
    | (r, (s, w)) => (r, (.spidev s, w))

def limits : Handle × ω → Nat × Nat
  | (.dummy e _, _) => (e.maxRead, e.maxWrite)
  | (.dediprog d, w) => (eq.usbProgrammer.maxRead (d, w), eq.usbProgrammer.maxWrite (d, w))
  | (.spidev s, w) => (eq.busProgrammer.maxRead (s, w), eq.busProgrammer.maxWrite (s, w))

/-- Waiting; an emulated chip needs none. -/
def delay (t : Nat) : Handle × ω → Handle × ω
  | (.dummy e image, w) => (.dummy e image, w)
  | (.dediprog d, w) => (.dediprog d, eq.usb.sleep t w)
  | (.spidev s, w) => (.spidev s, eq.spidev.sleep t w)

def programmer : Programmer (Handle × ω) where
  maxRead s := (eq.limits s).1
  maxWrite s := (eq.limits s).2
  execute := eq.execute
  delay := eq.delay
  report p := fun (h, w) => (h, eq.report p w)
  note n := fun (h, w) => (h, eq.files.note n w)

/-- Shuts an open programmer down and drops it. -/
def close : Handle → Act ω Error Unit
  | .dummy _ none => pure ()
  | .dummy e (some path) => Emulator.saveImage eq.files path e.cells
  | .spidev _ => pure ()
  | .dediprog d => fun w =>
    let (r, (d, w)) := Dediprog.shutdown eq.usb (d, w)
    (r, Dediprog.drop eq.usb d w)

def workshop (catalog : List Chip) : Workshop ω Handle where
  drivers := DriverKind.all.map fun k => ⟨k.name, eq.connect catalog k⟩
  programmer := eq.programmer
  close := eq.close
  catalog
  files := eq.files

end Equipment
end NorFlash
