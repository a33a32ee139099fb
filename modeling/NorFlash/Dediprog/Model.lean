import NorFlash.Text.Blank
import NorFlash.Text.Decimal

namespace NorFlash.Dediprog

inductive Model where
  | unknown | sf100 | sf200 | sf600 | sf600pg2 | sf700
  deriving DecidableEq, Repr

namespace Model

def name : Model → String
  | unknown => "Unknown" | sf100 => "SF100" | sf200 => "SF200"
  | sf600 => "SF600" | sf600pg2 => "SF600PG2" | sf700 => "SF700"

/-- Later models have a higher rank. -/
def rank : Model → Nat
  | unknown => 0 | sf100 => 1 | sf200 => 2 | sf600 => 3 | sf600pg2 => 4 | sf700 => 5

/-- The model that a device string starts with. -/
def ofDeviceString (s : String) : Model :=
  ([sf700, sf600pg2, sf600, sf200, sf100].find? fun m => s.startsWith m.name).getD unknown

/-- Whether it is one of the models that switch between modes of transfer. -/
def isSf600Class (m : Model) : Bool := sf600.rank ≤ m.rank

def isBeforePg2 (m : Model) : Bool := m.rank < sf600pg2.rank

/-- Whether the model ships with firmware of this major version. -/
def acceptsMajor (m : Model) (major : Nat) : Bool :=
  match m with
  | sf600pg2 => major ≤ 1
  | sf700 => major == 4
  | sf100 | sf200 | sf600 => 2 ≤ major && major ≤ 7
  | unknown => false

end Model

namespace Firmware

/-- A version in one word of 32 bits. Each part has a byte; what does not fit spills into the part
above it. -/
def encode (major minor patch : Nat) : Nat :=
  (major * 0x10000 % 0x100000000) ||| (minor * 0x100 % 0x100000000) ||| patch

/-- The three bytes of a version. -/
def parts (version : Nat) : Nat × Nat × Nat :=
  (version / 0x10000 % 0x100, version / 0x100 % 0x100, version % 0x100)

/-- What follows the first mark of a version. -/
def afterMark? : List Char → Option (List Char)
  | [] => none
  | 'V' :: ':' :: cs => some cs
  | _ :: cs => afterMark? cs

/-- What stands before a further mark. -/
def beforeMark : List Char → List Char
  | [] => []
  | 'V' :: ':' :: _ => []
  | c :: cs => c :: beforeMark cs

/-- The text before the first point, and what follows the point if there is one. -/
def cutPoint (cs : List Char) : List Char × Option (List Char) :=
  (cs.takeWhile (· != '.'), (cs.dropWhile (· != '.')).tail?)

/-- Parts of a version are words of 32 bits. -/
def part? (cs : List Char) : Option Nat := Text.natural? 0x100000000 (String.ofList cs)

/-- The numbers of a version text. There may be blanks around the first, and anything behind the
digits of the last. -/
def numbers? (cs : List Char) : Option (Nat × Nat × Nat) := do
  let (major, rest) := cutPoint cs
  let (minor, rest) := cutPoint (← rest)
  let patch := (← rest).takeWhile Text.isDigit
  return (← part? (Text.trim major), ← part? minor, ← part? patch)

/-- The numbers of the version in a device string such as `SF600 V:7.2.0`. -/
def numbersOf? (s : String) : Option (Nat × Nat × Nat) := do
  numbers? (beforeMark (← afterMark? s.toList))

def ofDeviceString? (s : String) : Option Nat :=
  (numbersOf? s).map fun (major, minor, patch) => encode major minor patch

end Firmware

/-- How requests are laid out. -/
inductive Protocol where
  | unknown | v1 | v2 | v3
  deriving DecidableEq, Repr

namespace Protocol

def name : Protocol → String
  | unknown => "Unknown" | v1 => "V1" | v2 => "V2" | v3 => "V3"

def rank : Protocol → Nat
  | unknown => 0 | v1 => 1 | v2 => 2 | v3 => 3

def «of» (m : Model) (firmware : Nat) : Protocol :=
  match m with
  | .sf100 | .sf200 => if firmware < Firmware.encode 5 5 0 then v1 else v2
  | .sf600 =>
    if firmware < Firmware.encode 6 9 0 then v1
    else if firmware ≤ Firmware.encode 7 2 21 then v2
    else v3
  | .sf700 | .sf600pg2 => v3
  | .unknown => unknown

/-- From the second protocol on, values carry what the first puts into indices. -/
def usesValues (p : Protocol) : Bool := v2.rank ≤ p.rank

end Protocol

/-- Lights of the programmer. -/
inductive Led where
  | none | pass | busy | error | all
  deriving DecidableEq, Repr

/-- A set bit lights a lamp. -/
def Led.bits : Led → Nat
  | none => 0 | pass => 1 | busy => 2 | error => 4 | all => 7

/-- Value and index of the request that sets the lights. A light is on where the bit is clear; the
oldest firmware has two lights, the other way round. -/
def ledRequest (p : Protocol) (firmware : Nat) (led : Led) : Nat × Nat :=
  let bits := led.bits
  if p.usesValues then ((bits ^^^ 7) * 0x100, 0)
  else if firmware < Firmware.encode 5 0 0 then
    (9, (((bits &&& 4) / 4) ||| ((bits &&& 1) * 4)) ^^^ 7)
  else (9, bits ^^^ 7)

/-- Value and index that announce a transfer on the bus, with or without an answer. -/
def transceiveRequest (p : Protocol) (answer : Bool) : Nat × Nat :=
  let flag := if answer then 1 else 0
  if p.usesValues then (flag, 0) else (0, flag)

end NorFlash.Dediprog
