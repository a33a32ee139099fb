import NorFlash.Session.Parameters

namespace NorFlash.Dediprog

inductive Fault where
  | deviceNotFound
  | unknownDevice (deviceString : String)
  | openFailed (reason : String)
  | claimFailed (reason : String)
  | transferFailed (reason : String)
  | invalidResponse (reason : String)
  | firmware (reason : String)
  | invalidParameter (reason : String)
  deriving DecidableEq, Repr

def Fault.message : Fault → String
  | .deviceNotFound => "Dediprog device not found (VID:0483 PID:DADA)"
  | .unknownDevice s => s!"Unknown Dediprog device: {s}"
  | .openFailed s => s!"Failed to open Dediprog: {s}"
  | .claimFailed s => s!"Failed to claim interface: {s}"
  | .transferFailed s => s!"USB transfer failed: {s}"
  | .invalidResponse s => s!"Invalid response from Dediprog: {s}"
  | .firmware s => s!"Firmware error: {s}"
  | .invalidParameter s => s!"Invalid parameter: {s}"

/-- A socket of a programmer with two. -/
inductive Target where
  | first | second
  deriving DecidableEq, Repr

namespace Target

def ofNumber? : Nat → Option Target
  | 1 => some first
  | 2 => some second
  | _ => none

/-- The number that the programmer knows it by. -/
def wire : Target → Nat
  | first => 0
  | second => 2

def name : Target → String
  | first => "ApplicationFlash1"
  | second => "ApplicationFlash2"

end Target

/-- A clock rate and the number that selects it. -/
structure Speed where
  name : String
  hertz : Nat
  selector : Nat

def speeds : List Speed :=
  [⟨"24M", 24000000, 0⟩, ⟨"12M", 12000000, 2⟩, ⟨"8M", 8000000, 1⟩, ⟨"3M", 3000000, 3⟩,
    ⟨"2.18M", 2180000, 4⟩, ⟨"1.5M", 1500000, 5⟩, ⟨"750k", 750000, 6⟩, ⟨"375k", 375000, 7⟩]

def speedSelector? (hertz : Nat) : Option Nat :=
  (speeds.find? fun s => s.hertz == hertz).map Speed.selector

/-- The clock rate of this name, in capital or small letters. -/
def speedOfName? (s : String) : Option Nat :=
  let small (s : String) : List Char := s.toList.map Char.toLower
  (speeds.find? fun speed => small speed.name == small s).map Speed.hertz

/-- Supply voltages in millivolts and the numbers that select them. -/
def voltages : List (Nat × Nat) := [(0, 0), (1800, 0x12), (2500, 0x11), (3500, 0x10)]

def voltageSelector? (millivolts : Nat) : Option Nat := voltages.lookup millivolts

structure Config where
  /-- Which one of several programmers. -/
  index : Nat := 0
  target : Target := .first
  hertz : Nat := 12000000
  millivolts : Nat := 3500
  deriving DecidableEq, Repr

namespace Config

def validate (c : Config) : Except Fault Unit :=
  if (speedSelector? c.hertz).isNone then
    .error (.invalidParameter s!"SPI speed {c.hertz} Hz not possible")
  else if c.millivolts == 0 || (voltageSelector? c.millivolts).isNone then
    .error (.invalidParameter s!"voltage {c.millivolts} mV not possible (1800, 2500 or 3500)")
  else .ok ()

/-- The value of a key as a number below `bound`. -/
def number (key value : String) (bound : Nat) : Except Failure Nat :=
  match Text.natural? bound value with
  | some n => .ok n
  | none => .error (Parameters.invalid key value)

def indexBound : Nat := 0x10000000000000000

/-- Reads a value with `f`, if the key has one. -/
def update (c : Config) (value : Option String) (f : String → Except Failure Config) :
    Except Failure Config :=
  match value with
  | none => .ok c
  | some v => f v

/-- The set-up that a parameter string asks for. -/
def ofArgs (args : String) : Except Failure Config := do
  let value (key : String) := Parameters.value? args key
  let c : Config := {}
  let c ← c.update (value "voltage") fun v => return { c with millivolts := ← Parameters.voltage v }
  let c ← c.update (value "hz") fun v => return { c with hertz := ← Parameters.frequency v }
  let c ← c.update (value "spispeed") fun v =>
    match speedOfName? v with
    | some hertz => .ok { c with hertz }
    | none => .error (Parameters.invalid "spispeed" v)
  let c ← c.update ((value "device").or (value "index")) fun v =>
    return { c with index := ← number "device" v indexBound }
  let c ← c.update (value "target") fun v => do
    match Target.ofNumber? (← number "target" v 0x100) with
    | some target => .ok { c with target }
    | none => .error (Parameters.invalid "target" v)
  match c.validate with
  | .ok () => .ok c
  | .error f => .error (.invalidArgument f.message)

end Config
end NorFlash.Dediprog
