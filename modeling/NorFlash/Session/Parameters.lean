import NorFlash.Numeric.Binary64
import NorFlash.Session.Failure
import NorFlash.Text.Blank
import NorFlash.Text.Decimal

namespace NorFlash.Parameters

def isSeparator (c : Char) : Bool := c == ',' || c == ':'

/-- The pieces between the separators, empty ones included. -/
def pieces (isMark : Char → Bool) : List Char → List (List Char)
  | [] => [[]]
  | c :: cs =>
    if isMark c then [] :: pieces isMark cs
    else match pieces isMark cs with
      | p :: ps => (c :: p) :: ps
      | [] => [[c]]

/-- The pieces that are not empty. -/
def tokens (args : List Char) : List (List Char) :=
  (pieces isSeparator args).filter fun t => !t.isEmpty

/-- Key and value around the first equals sign. -/
def keyValue? (token : List Char) : Option (List Char × List Char) :=
  match token.dropWhile (· != '=') with
  | _ :: value => some (token.takeWhile (· != '='), value)
  | [] => none

/-- The first token; empty if there is none. -/
def programmerName (args : String) : String := String.ofList ((tokens args.toList).headD [])

/-- The first value of a key that is not empty. -/
def value? (args key : String) : Option String :=
  (((tokens args.toList).drop 1).filterMap keyValue?).findSome? fun (k, v) =>
    if k == key.toList && !v.isEmpty then some (String.ofList v) else none

def isLetter (c : Char) : Bool := ('a' ≤ c && c ≤ 'z') || ('A' ≤ c && c ≤ 'Z')

/-- The number and the unit behind it, in small letters. -/
def splitUnit (s : String) : List Char × String :=
  let cs := Text.trim s.toList
  let unit := Text.trim (cs.dropWhile fun c => !isLetter c)
  (Text.trim (cs.takeWhile fun c => !isLetter c), String.ofList (unit.map Char.toLower))

/-- The nearest number with 53 binary digits to a decimal that is not negative. -/
def nearestOf (d : Text.Decimal) : Binary64 := Binary64.nearest d.digits (Nat.pow 10 d.places)

/-- A positive quantity as a whole number of base units, at most `most`. Number and product are
rounded to 53 binary digits, then to the nearest whole number. -/
def quantity? (units : List (String × Nat)) (most : Nat) (s : String) : Option Nat := do
  let (number, unit) := splitUnit s
  let d ← Text.Decimal.ofChars? number
  let factor ← units.lookup unit
  let x := (nearestOf d).scale factor
  if d.negative || !x.isPositive then none
  else if most < x.round then none
  else some x.round

def voltageUnits : List (String × Nat) := [("", 1), ("mv", 1), ("v", 1000)]

def frequencyUnits : List (String × Nat) :=
  [("", 1), ("hz", 1), ("khz", 1000), ("mhz", 1000000)]

/-- The largest voltage in millivolts. -/
def mostVolts : Nat := 0xFFFF

/-- The largest frequency in hertz. -/
def mostHertz : Nat := 0xFFFFFFFF

def invalid (key value : String) : Failure := .invalidArgument s!"{key}={value}"

/-- A supply voltage in millivolts. -/
def voltage (s : String) : Except Failure Nat :=
  match quantity? voltageUnits mostVolts s with
  | some n => .ok n
  | none => .error (invalid "voltage" s)

/-- A clock frequency in hertz. -/
def frequency (s : String) : Except Failure Nat :=
  match quantity? frequencyUnits mostHertz s with
  | some n => .ok n
  | none => .error (invalid "hz" s)

end NorFlash.Parameters
