import NorFlash.VendorFile.Scan
import NorFlash.VendorFile.Term

namespace NorFlash.VendorFile

/-- Levels of nesting that a file may use. -/
def nestingLimit : Nat := 128

/-- The largest number that is read as a whole one. -/
def largestNatural : Nat := 0xFFFFFFFFFFFFFFFF

/-- The range of numbers with a sign that are read as whole ones. -/
def fitsSigned (negative : Bool) (n : Nat) : Bool :=
  if negative then n ≤ 0x8000000000000000 else n < 0x8000000000000000

/-- A number with a sign that needs neither point nor exponent. -/
def signedInteger? (cs : List Char) : Option (List Char) :=
  match Text.Decimal.scanSign cs with
  | (negative, rest) =>
    match integer rest with
    | some (n, rest) => if fitsSigned negative n then some rest else none
    | none => none

def float : Scan Term := fun cs => (float? cs).map fun rest => (.foreign, rest)

/-- A number that starts with a sign. -/
def signedNumber : Scan Term := fun cs =>
  if looksFloat cs then float cs
  else match signedInteger? cs with
    | some rest => some (.foreign, rest)
    | none => float cs

/-- A number that starts with a digit. -/
def unsignedNumber : Scan Term := fun cs =>
  if looksFloat cs then float cs
  else match integer cs with
    | some (n, rest) => if n ≤ largestNatural then some (.natural n, rest) else float cs
    | none => float cs

/-- Values separated by commas, up to the closing mark, which is left; at most `fuel` of them, and
those read so far last first. -/
def items {α : Type} (item : Scan α) (mark : Char) : (fuel : Nat) → (acc : List α) → Scan (List α)
  | 0, _, _ => none
  | fuel + 1, acc, cs => do
    match ← skip cs with
    | [] => none
    | c :: cs =>
      if c == mark then return (acc.reverse, c :: cs)
      else
        let (x, cs) ← item (c :: cs)
        let (more, cs) ← comma cs
        match more, cs with
        | true, cs => items item mark fuel (x :: acc) cs
        | false, c :: cs => if c == mark then return ((x :: acc).reverse, c :: cs) else none
        | false, [] => none

/-- Values separated by commas and the mark that closes them, in a file of so many characters. -/
def closedItems {α : Type} (size : Nat) (item : Scan α) (mark : Char) : Scan (List α) := fun cs => do
  let (xs, cs) ← items item mark (size + 1) [] cs
  return (xs, ← closing mark cs)

/-- A key, a colon and a value. -/
def entry {α : Type} (key : Scan α) (value : Scan Term) : Scan (α × Term) := fun cs => do
  let (k, cs) ← key cs
  match ← skip cs with
  | ':' :: cs =>
    let (v, cs) ← value (← skip cs)
    return ((k, v), cs)
  | _ => none

/-- Whether what stands after an opening parenthesis is a plain value and no named one. -/
def holdsTuple (cs : List Char) : Option Bool :=
  match word cs with
  | none => some true
  | some (_, cs) => do
    match ← skip cs with
    | [] => none
    | c :: _ => return c != ':'

/-- The parts of a value between parentheses, after the opening one. -/
def parenthesized (size : Nat) (name : Option String) (inner : Scan Term) : Scan Term := fun cs => do
  if ← holdsTuple (← skip cs) then
    let (ts, cs) ← closedItems size inner ')' cs
    return (.tuple name ts, cs)
  else
    let (fs, cs) ← closedItems size (entry word inner) ')' cs
    return (.record name fs, cs)

/-- What nested values are read with: `option` one level deeper, `collection` for the values of a
collection. -/
structure Nested where
  /-- Characters in the whole file; no collection has more values. -/
  size : Nat
  option : Scan Term
  /-- Whether there may be a collection at all. -/
  collections : Bool
  collection : Scan Term

def optionValue (implicit : Bool) (nested : Nested) : Scan Term := fun cs => do
  match ← skip cs with
  | '(' :: cs =>
    let (_, cs) ← nested.option (← skip cs)
    return (.foreign, ← closing ')' cs)
  | cs => if implicit then (nested.option cs).map fun r => (.foreign, r.2) else none

/-- A value that opens with a mark or a digit. -/
def marked (nested : Nested) : Scan Term := fun cs =>
  match cs with
  | [] => none
  | '(' :: rest =>
    if nested.collections then parenthesized nested.size none nested.collection rest else none
  | '[' :: rest =>
    if nested.collections then
      (closedItems nested.size nested.collection ']' rest).map fun (ts, cs) => (.list ts, cs)
    else none
  | '{' :: rest =>
    if nested.collections then
      (closedItems nested.size (entry nested.collection nested.collection) '}' rest).map
        fun (_, cs) => (.foreign, cs)
    else none
  | c :: _ =>
    if Text.isDigit c then unsignedNumber cs
    else if c == '+' || c == '-' then signedNumber cs
    else if c == '.' then float cs
    else if c == '"' || c == 'r' then (text cs).map fun (s, cs) => (.text s, cs)
    else if c == closeQuote then (character? cs).map fun cs => (.foreign, cs)
    else none

/-- A word alone, or the name of what stands between parentheses. -/
def named (nested : Nested) (name : String) : Scan Term := fun cs => do
  match ← skip cs with
  | '(' :: cs =>
    if nested.collections then parenthesized nested.size (some name) nested.collection cs
    else none
  | cs => return (.word name, cs)

def term (implicit : Bool) (nested : Nested) : Scan Term := fun cs =>
  match afterWord? "true" cs, afterWord? "false" cs, afterWord? "Some" cs, afterWord? "None" cs with
  | some rest, _, _, _ => some (.truth true, rest)
  | _, some rest, _, _ => some (.truth false, rest)
  | _, _, some rest, _ => optionValue implicit nested rest
  | _, _, _, some rest => some (.foreign, rest)
  | _, _, _, _ =>
    match after? ['(', ')'] cs with
    | some rest => some (.tuple none [], rest)
    | none =>
      match ["inf", "-inf", "NaN"].findSome? fun w => afterWord? w cs with
      | some rest => some (.foreign, rest)
      | none =>
        match word cs with
        | some (name, rest) => named nested name rest
        | none => marked nested cs

/-- A value with so many levels left for what is nested in it. -/
def termWithin (size : Nat) (implicit : Bool) : (levels : Nat) → Scan Term
  | 0 => term implicit ⟨size, fun _ => none, false, fun _ => none⟩
  | 1 => term implicit ⟨size, termWithin size implicit 0, true, fun _ => none⟩
  | n + 2 =>
    term implicit ⟨size, termWithin size implicit (n + 1), true, termWithin size implicit n⟩

/-- Names of extensions that a file may ask for; only the first changes what is read here. -/
def implicitSome : String := "implicit_some"

def extensionNames : List String :=
  ["unwrap_newtypes", implicitSome, "unwrap_variant_newtypes"]

/-- Marks with blanks and comments between and after them. -/
def marks : List String → List Char → Option (List Char)
  | [], cs => some cs
  | m :: ms, cs => do marks ms (← skip (← after? m.toList cs))

/-- The names up to the end of a list of extensions; at least one. -/
def extensionList : (fuel : Nat) → Scan (List String)
  | 0, _ => none
  | fuel + 1, cs => do
    let (name, cs) ← word cs
    if !extensionNames.contains name then none
    let (more, cs) ← comma cs
    match more, cs with
    | true, c :: _ =>
      if inWord c then
        let (names, cs) ← extensionList fuel cs
        return (name :: names, cs)
      else return ([name], cs)
    | false, c :: _ => if inWord c then none else return ([name], cs)
    | _, [] => return ([name], cs)

/-- The lines at the head of a file that ask for extensions, and whether one of them lets options
be written without a word. -/
def head : (fuel : Nat) → (implicit : Bool) → Scan Bool
  | 0, _, _ => none
  | fuel + 1, implicit, cs =>
    match cs with
    | '#' :: _ => do
      let cs ← marks ["#", "!", "[", "enable", "("] cs
      let (names, cs) ← extensionList (cs.length + 1) cs
      let cs ← marks [")", "]"] (← skip cs)
      head fuel (implicit || names.contains implicitSome) (← skip cs)
    | cs => some (implicit, cs)

/-- The one value of a file. -/
def read? (s : String) : Option Term := do
  let cs ← skip s.toList
  let size := cs.length
  let (implicit, cs) ← head (size + 1) false cs
  let (t, cs) ← termWithin size implicit nestingLimit cs
  match ← skip cs with
  | [] => return t
  | _ => none

end NorFlash.VendorFile
