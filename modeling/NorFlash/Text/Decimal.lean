namespace NorFlash.Text

/-- The value of a decimal digit. -/
def digit? (c : Char) : Option Nat :=
  if '0' ≤ c ∧ c ≤ '9' then some (c.toNat - '0'.toNat) else none

def isDigit (c : Char) : Bool := (digit? c).isSome

/-- The number that digits spell, continuing from `n`. -/
def digitsValue (n : Nat) (cs : List Char) : Nat :=
  cs.foldl (fun n c => n * 10 + (digit? c).getD 0) n

/-- The number `digits / 10 ^ places`, or its opposite. -/
structure Decimal where
  negative : Bool
  digits : Nat
  places : Nat
  deriving DecidableEq, Repr

namespace Decimal

def scanSign : List Char → Bool × List Char
  | '-' :: cs => (true, cs)
  | '+' :: cs => (false, cs)
  | cs => (false, cs)

/-- The digits after a point, if there is one. -/
def scanPlaces : List Char → List Char × List Char
  | '.' :: cs => (cs.takeWhile isDigit, cs.dropWhile isDigit)
  | cs => ([], cs)

/-- Reads a decimal at the front; there must be a digit. -/
def scan (cs : List Char) : Option (Decimal × List Char) :=
  let (negative, cs) := scanSign cs
  let whole := cs.takeWhile isDigit
  let (part, rest) := scanPlaces (cs.dropWhile isDigit)
  if whole.isEmpty && part.isEmpty then none
  else some (⟨negative, digitsValue 0 (whole ++ part), part.length⟩, rest)

/-- Reads a whole text as a decimal. -/
def ofChars? (cs : List Char) : Option Decimal :=
  match scan cs with
  | some (d, []) => some d
  | _ => none

end Decimal

/-- Reads a whole text as a number below `bound`: digits, perhaps after a plus sign. -/
def natural? (bound : Nat) (s : String) : Option Nat :=
  let cs := match s.toList with
    | '+' :: cs => cs
    | cs => cs
  if cs.isEmpty || !cs.all isDigit then none
  else
    let n := digitsValue 0 cs
    if n < bound then some n else none

end NorFlash.Text
