import NorFlash.Chip.Catalog
import NorFlash.Files.OsError
import NorFlash.VendorFile.Definition

namespace NorFlash

inductive DatabaseError where
  | io (e : OsError)
  /-- The text is no vendor file. -/
  | parse
  | invalid (chip reason : String)
  deriving DecidableEq, Repr

def DatabaseError.message : DatabaseError → String
  | .io e => s!"I/O error: {e.message}"
  | .parse => "parse error"
  | .invalid chip reason => s!"chip {chip}: {reason}"

namespace VendorFile

def regionReason? (d : RegionDefinition) (r : Region) (total : Nat) : Option String :=
  if !r.active then none
  else if total < r.stop then
    some (s!"erase region {Text.opcode d.opcode} ends at 0x{Text.hex 0 r.stop}, past the chip size " ++
      s!"0x{Text.hex 0 total}")
  else if r.function.erasesChip && (r.start != 0 || r.blockCount != 1 || r.blockSize != total) then
    some s!"chip erase {Text.opcode d.opcode} must be a single block of the whole chip"
  else none

/-- The region that a definition describes, on a chip of `total` bytes. -/
def RegionDefinition.toRegion (d : RegionDefinition) (total : Nat) : Except String Region :=
  match EraseFunction.ofOpcode? d.opcode with
  | none => .error s!"unknown erase opcode {Text.opcode d.opcode}"
  | some function =>
    match d.size.toBytes? with
    | none => .error s!"erase block size for {Text.opcode d.opcode} overflows"
    | some size =>
      let r : Region := ⟨d.start, size, d.count, function⟩
      match regionReason? d r total with
      | some reason => .error reason
      | none => .ok r

/-- The size of a chip, which is not zero. -/
def ChipDefinition.total? (d : ChipDefinition) : Option Nat :=
  d.totalSize.toBytes?.filter (· != 0)

/-- The regions of a chip of `total` bytes. -/
def ChipDefinition.toRegions (d : ChipDefinition) (total : Nat) : Except String (List Region) :=
  if d.pageSize == 0 then .error "page_size must not be zero"
  else if Chip.maxRegions < d.regions.length then
    .error s!"{d.regions.length} erase regions, at most {Chip.maxRegions} allowed"
  else d.regions.mapM fun r => r.toRegion total

def ChipDefinition.toChip (vendor : String) (manufacturer : Nat) (d : ChipDefinition) :
    Except DatabaseError Chip :=
  match d.total? with
  | none => .error (.invalid d.id "total_size must be between 1 byte and 4 GiB")
  | some size =>
    match d.toRegions size with
    | .error reason => .error (.invalid d.id reason)
    | .ok regions =>
      .ok { id := d.id, vendor, name := d.name, manufacturer, model := d.deviceId, size,
            pageSize := d.pageSize, features := d.features, voltageMin := d.voltageMin,
            voltageMax := d.voltageMax, probe := d.probe, regions }

def VendorDefinition.toChips (d : VendorDefinition) : Except DatabaseError (List Chip) :=
  d.chips.mapM (ChipDefinition.toChip d.vendor d.manufacturerId)

/-- The chips that a text defines as `parse` reads it. -/
def chips (parse : Parser) (text : String) : Except DatabaseError (List Chip) :=
  match parse text with
  | none => .error .parse
  | some d => d.toChips

end VendorFile

structure Database where
  chips : List Chip := []

namespace Database

/-- The built-in chips. -/
def builtin : Database := ⟨Chip.catalog⟩

def size (d : Database) : Nat := d.chips.length

def find? (d : Database) (id : String) : Option Chip := d.chips.find? fun c => c.id == id

/-- The database with the chips of one vendor file behind the others, and their number. -/
def load (parse : VendorFile.Parser) (d : Database) (text : String) :
    Except DatabaseError (Nat × Database) :=
  match VendorFile.chips parse text with
  | .error e => .error e
  | .ok cs => .ok (cs.length, ⟨d.chips ++ cs⟩)

end Database
end NorFlash
