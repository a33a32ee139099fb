import NorFlash.Text.Combining
import NorFlash.Text.Shapeless

namespace NorFlash.Text

/-- Whether a character lies in one of the runs. -/
def inRuns (runs : List (Nat × Nat)) (c : Char) : Bool :=
  runs.any fun r => r.1 ≤ c.toNat && c.toNat ≤ r.2

/-- Whether a character can be seen, and told from what stands before it. -/
def hasShape (c : Char) : Bool :=
  !(inRuns combiningRuns c || inRuns shapelessRuns c || inRuns fillerRuns c)

def escapeChar (c : Char) : String :=
  if c == '"' then "\\\""
  else if c == '\\' then "\\\\"
  else if c == '\n' then "\\n"
  else if c == '\r' then "\\r"
  else if c == '\t' then "\\t"
  else if c.toNat == 0 then "\\0"
  else if hasShape c then String.singleton c
  else "\\u\x7b" ++ String.ofList (Nat.toDigits 16 c.toNat) ++ "\x7d"

/-- The text between quotes. -/
def escaped (s : String) : String := "\"" ++ String.join (s.toList.map escapeChar) ++ "\""

end NorFlash.Text
