import NorFlash.Chip.Basic
import NorFlash.Flash.Strategy
import NorFlash.Session.Registry
import NorFlash.Text.Numeral

namespace NorFlash.Listing

/-- Lines, each with its end. -/
def lines (ls : List String) : String := String.join (ls.map (· ++ "\n"))

/-- A size in the largest unit of which it holds one, rounded down. -/
def sizeText (n : Nat) : String :=
  if 1024 * 1024 ≤ n then s!"{n / (1024 * 1024)} MiB"
  else if 1024 ≤ n then s!"{n / 1024} KiB"
  else s!"{n} B"

/-- The columns of the chip table. -/
def row (id vendor name size probe voltage features : String) : String :=
  "  " ++ " ".intercalate
    [Text.padRight 14 id, Text.padRight 10 vendor, Text.padRight 14 name, Text.padLeft 8 size,
      Text.padLeft 6 probe, Text.padLeft 13 voltage] ++ "  " ++ features

/-- A range of voltages in thirteen columns, if neither needs more than five. -/
def voltageText (least most : Nat) : String :=
  Text.padLeft 5 (toString least) ++ "-" ++ Text.padRight 5 (toString most) ++ "mV"

def chipRow (c : Chip) : String :=
  row c.id c.vendor c.name (sizeText c.size) c.probe.name (voltageText c.voltageMin c.voltageMax)
    (",".intercalate c.features.names)

def chips (cs : List Chip) : List String :=
  "Supported flash chips:" :: row "Id" "Vendor" "Name" "Size" "Probe" "Voltage" "Features" ::
    cs.map chipRow

def programmerRow (k : DriverKind) : String := s!"  {Text.padRight 10 k.name} - {k.description}"

def programmers : List String := "Supported programmers:" :: DriverKind.all.map programmerRow

def strategyRow (x : Strategy) : String :=
  let mark := if x == Strategy.default then " (default)" else ""
  s!"  {x.name}{mark}: {x.description}"

def strategies : List String := "Write strategies:" :: Strategy.all.map strategyRow

/-- Every listing. -/
def everything (cs : List Chip) : List String := chips cs ++ "" :: programmers ++ "" :: strategies

end NorFlash.Listing
