namespace NorFlash.VendorFile

inductive Term where
  /-- A number without sign, point and exponent. -/
  | natural (n : Nat)
  | text (s : String)
  | truth (b : Bool)
  /-- A word that stands alone. -/
  | word (name : String)
  /-- Values between brackets. -/
  | list (items : List Term)
  /-- Values between parentheses, perhaps after a word. -/
  | tuple (name : Option String) (items : List Term)
  /-- Named values between parentheses, perhaps after a word. -/
  | record (name : Option String) (fields : List (String × Term))
  /-- Anything that no definition reads: other numbers, characters, options, maps. -/
  | foreign
  deriving Repr

end NorFlash.VendorFile
