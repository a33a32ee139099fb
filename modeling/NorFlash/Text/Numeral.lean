namespace NorFlash.Text

/-- `n` in capital hexadecimal digits, at least `width` of them. -/
def hex (width n : Nat) : String :=
  let ds := (Nat.toDigits 16 n).map Char.toUpper
  String.ofList (List.replicate (width - ds.length) '0' ++ ds)

/-- An address: six digits, more where they are needed. -/
def address (n : Nat) : String := "0x" ++ hex 6 n

/-- A half-open address range. -/
def span (start stop : Nat) : String := address start ++ ".." ++ address stop

/-- An opcode: two digits. -/
def opcode (b : UInt8) : String := "0x" ++ hex 2 b.toNat

/-- Bytes between brackets, two digits each. -/
def byteList (bs : ByteArray) : String :=
  "[" ++ ", ".intercalate (bs.toList.map fun b => hex 2 b.toNat) ++ "]"

/-- Blanks on the right up to `width` characters. -/
def padRight (width : Nat) (s : String) : String :=
  s ++ String.ofList (List.replicate (width - s.length) ' ')

/-- Blanks on the left up to `width` characters. -/
def padLeft (width : Nat) (s : String) : String :=
  String.ofList (List.replicate (width - s.length) ' ') ++ s

/-- `n` in decimal digits, at least `width` of them. -/
def decimal (width n : Nat) : String :=
  let ds := Nat.toDigits 10 n
  String.ofList (List.replicate (width - ds.length) '0' ++ ds)

end NorFlash.Text
