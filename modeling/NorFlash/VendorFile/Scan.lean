import NorFlash.Text.Decimal

namespace NorFlash.VendorFile

abbrev Scan (α : Type) : Type := List Char → Option (α × List Char)

def isBlank (c : Char) : Bool := c == ' ' || c == '\t' || c == '\r' || c == '\n'

/-- Where a run of blanks and comments stands. -/
inductive Space where
  | plain
  /-- In a comment up to the end of the line. -/
  | line
  /-- In a block comment inside so many others. -/
  | block (outer : Nat)
  deriving DecidableEq

/-- Passes over blanks and comments; a comment that nobody closes is refused. -/
def skipFrom : Space → List Char → Option (List Char)
  | .plain, [] => some []
  | .plain, '/' :: '/' :: cs => skipFrom .line cs
  | .plain, '/' :: '*' :: cs => skipFrom (.block 0) cs
  | .plain, '/' :: _ => none
  | .plain, c :: cs => if isBlank c then skipFrom .plain cs else some (c :: cs)
  | .line, [] => some []
  | .line, c :: cs => skipFrom (if c == '\n' then .plain else .line) cs
  | .block _, [] => none
  | .block n, '/' :: '*' :: cs => skipFrom (.block (n + 1)) cs
  | .block 0, '*' :: '/' :: cs => skipFrom .plain cs
  | .block (n + 1), '*' :: '/' :: cs => skipFrom (.block n) cs
  | .block n, _ :: cs => skipFrom (.block n) cs

def skip (cs : List Char) : Option (List Char) := skipFrom .plain cs

/-- The rest after `mark`, if the text starts with it. -/
def after? : List Char → List Char → Option (List Char)
  | [], cs => some cs
  | m :: ms, c :: cs => if m == c then after? ms cs else none
  | _ :: _, [] => none

/-- Whether a comma follows, with the rest after it and the blanks around it. -/
def comma (cs : List Char) : Option (Bool × List Char) := do
  match ← skip cs with
  | ',' :: cs => return (true, ← skip cs)
  | cs => return (false, cs)

/-- A comma that may stand before the mark that closes. -/
def closing (mark : Char) (cs : List Char) : Option (List Char) := do
  let (_, cs) ← comma cs
  match cs with
  | c :: cs => if c == mark then some cs else none
  | [] => none

def startsWord (c : Char) : Bool :=
  ('a' ≤ c && c ≤ 'z') || ('A' ≤ c && c ≤ 'Z') || c == '_'

def inWord (c : Char) : Bool := startsWord c || Text.isDigit c

/-- What a word may hold when it is marked as raw. -/
def inRawWord (c : Char) : Bool := inWord c || c == '.' || c == '+' || c == '-'

/-- A word that is not raw; one that would go on as a raw word is refused. -/
def plainWord : Scan String := fun cs =>
  match cs with
  | [] => none
  | c :: _ =>
    if !startsWord c then none
    else
      let rest := cs.dropWhile inWord
      match rest with
      | d :: _ => if inRawWord d then none else some (String.ofList (cs.takeWhile inWord), rest)
      | [] => some (String.ofList cs, [])

/-- A word. After `r#` it may hold points and signs; an `r` that opens a raw text is none. -/
def word : Scan String := fun cs =>
  match cs with
  | ['r'] => none
  | 'r' :: '"' :: _ => none
  | 'r' :: '#' :: cs =>
    match cs with
    | [] => none
    | c :: _ =>
      if inRawWord c then some (String.ofList (cs.takeWhile inRawWord), cs.dropWhile inRawWord)
      else none
  | cs => plainWord cs

/-- The rest after a fixed word, if the text starts with it and no longer word. -/
def afterWord? (w : String) (cs : List Char) : Option (List Char) :=
  match after? w.toList cs with
  | some (c :: cs) => if inWord c then none else some (c :: cs)
  | r => r

/-- The value of a digit of any base up to sixteen. -/
def hexDigit? (c : Char) : Option Nat :=
  if 'a' ≤ c ∧ c ≤ 'f' then some (c.toNat - 'a'.toNat + 10)
  else if 'A' ≤ c ∧ c ≤ 'F' then some (c.toNat - 'A'.toNat + 10)
  else Text.digit? c

def inInteger (c : Char) : Bool := (hexDigit? c).isSome || c == '_'

def inFloat (c : Char) : Bool :=
  Text.isDigit c || c == '.' || c == 'e' || c == 'E' || c == '+' || c == '-' || c == '_'

/-- The base that the front announces, with the rest. -/
def base : List Char → Nat × List Char
  | '0' :: 'x' :: cs => (16, cs)
  | '0' :: 'b' :: cs => (2, cs)
  | '0' :: 'o' :: cs => (8, cs)
  | cs => (10, cs)

/-- The number that digits spell in a base, continuing from `n`; underscores are passed over. -/
def valueIn (b n : Nat) : List Char → Option Nat
  | [] => some n
  | c :: cs =>
    if c == '_' then valueIn b n cs
    else
      match hexDigit? c with
      | some d => if d < b then valueIn b (n * b + d) cs else none
      | none => none

/-- A number without sign. -/
def integer : Scan Nat := fun cs =>
  let (b, cs) := base cs
  match cs.takeWhile inInteger with
  | [] => none
  | '_' :: _ => none
  | ds => (valueIn b 0 ds).map fun n => (n, cs.dropWhile inInteger)

/-- An exponent, if there is one, and nothing else. -/
def endsAsFloat : List Char → Bool
  | [] => true
  | c :: cs =>
    (c == 'e' || c == 'E') &&
      let ds := (Text.Decimal.scanSign cs).2
      !ds.isEmpty && ds.all Text.isDigit

def floatWords : List String := ["inf", "+inf", "-inf", "NaN", "+NaN", "-NaN"]

/-- The rest after a number with point or exponent, or after one of the words for what is no
number. -/
def float? (cs : List Char) : Option (List Char) :=
  match floatWords.findSome? fun w => afterWord? w cs with
  | some rest => some rest
  | none =>
    let front := cs.takeWhile inFloat
    match Text.Decimal.scan front with
    | some (_, tail) => if endsAsFloat tail then some (cs.dropWhile inFloat) else none
    | none => none

def unsigned : List Char → List Char
  | '+' :: cs => cs
  | '-' :: cs => cs
  | cs => cs

/-- Whether the number at the front goes on beyond what a number without point would hold. -/
def looksFloat (cs : List Char) : Bool :=
  let cs := unsigned cs
  (cs.takeWhile inInteger).length < (cs.takeWhile inFloat).length

def closeQuote : Char := Char.ofNat 39

/-- Up to `left` more digits of a code point, up to the closing brace. -/
def codePoint : (left n : Nat) → Scan Nat
  | 0, n, '}' :: cs => some (n, cs)
  | 0, _, _ => none
  | _ + 1, n, '}' :: cs => some (n, cs)
  | left + 1, n, c :: cs => (hexDigit? c).bind fun d => codePoint left (n * 16 + d) cs
  | _ + 1, _, [] => none

def charOf? (n : Nat) : Option Char := if n.isValidChar then some (Char.ofNat n) else none

/-- What stands after a backslash. -/
def escape : Scan Char := fun cs =>
  match cs with
  | 'n' :: cs => some ('\n', cs)
  | 'r' :: cs => some ('\r', cs)
  | 't' :: cs => some ('\t', cs)
  | '0' :: cs => some (Char.ofNat 0, cs)
  | '\\' :: cs => some ('\\', cs)
  | '"' :: cs => some ('"', cs)
  | 'x' :: a :: b :: cs => do
    let a ← hexDigit? a
    let b ← hexDigit? b
    return (Char.ofNat (a * 16 + b), cs)
  | 'u' :: '{' :: c :: cs => do
    let d ← hexDigit? c
    let (n, cs) ← codePoint 5 d cs
    return (← charOf? n, cs)
  | c :: cs => if c == closeQuote then some (c, cs) else none
  | [] => none

/-- The characters up to the closing quote, each backslash with its next character. -/
def quoted : Scan (List Char)
  | [] => none
  | '"' :: cs => some ([], cs)
  | '\\' :: c :: cs => (quoted cs).map fun (body, cs) => ('\\' :: c :: body, cs)
  | c :: cs => (quoted cs).map fun (body, cs) => (c :: body, cs)

/-- Puts the characters in the place of their escapes; every step reads at least one character. -/
def unescape : (fuel : Nat) → (acc : List Char) → List Char → Option String
  | _, acc, [] => some (String.ofList acc.reverse)
  | 0, _, _ => none
  | fuel + 1, acc, '\\' :: cs => do
    let (c, cs) ← escape cs
    unescape fuel (c :: acc) cs
  | fuel + 1, acc, c :: cs => unescape fuel (c :: acc) cs

/-- The characters up to the mark that ends a raw text. -/
def rawFrom (mark : List Char) : (acc : List Char) → Scan String
  | acc, cs =>
    match after? mark cs with
    | some rest => some (String.ofList acc.reverse, rest)
    | none =>
      match cs with
      | [] => none
      | c :: cs => rawFrom mark (c :: acc) cs

/-- A text between quotes, or a raw text between quotes with equally many marks around them. -/
def text : Scan String := fun cs =>
  match cs with
  | '"' :: cs => do
    let (body, cs) ← quoted cs
    return (← unescape body.length [] body, cs)
  | 'r' :: cs =>
    let marks := cs.takeWhile (· == '#')
    match cs.dropWhile (· == '#') with
    | '"' :: cs => rawFrom ('"' :: marks) [] cs
    | _ => none
  | _ => none

/-- The rest after one character between single quotes. -/
def character? (cs : List Char) : Option (List Char) := do
  let cs ← after? [closeQuote] cs
  match cs with
  | '\\' :: cs =>
    let (_, cs) ← escape cs
    after? [closeQuote] cs
  | c :: cs => if c == closeQuote then none else after? [closeQuote] cs
  | [] => none

end NorFlash.VendorFile
