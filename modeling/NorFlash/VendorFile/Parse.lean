import NorFlash.VendorFile.Definition
import NorFlash.VendorFile.Reader

namespace NorFlash.VendorFile

namespace Term

/-- The fields of a record, where a name in front can only be `name` and none of the `known` fields
stands twice. -/
def fields? (name : String) (known : List String) (t : Term) :
    Option (List (String × Term)) :=
  let named (n : Option String) : Bool := n.all (· == name)
  match t with
  | .record n fs =>
    if named n && known.all (fun k => fs.countP (·.1 == k) ≤ 1) then some fs else none
  | .tuple n [] => if named n then some [] else none
  | _ => none

/-- A number below `bound`. -/
def below? (bound : Nat) : Term → Option Nat
  | .natural n => if n < bound then some n else none
  | _ => none

def text? : Term → Option String
  | .text s => some s
  | _ => none

def truth? : Term → Option Bool
  | .truth b => some b
  | _ => none

def items? : Term → Option (List Term)
  | .list ts => some ts
  | _ => none

end Term

/-- A field that must be there. -/
def required {α : Type} (fs : List (String × Term)) (key : String) (read : Term → Option α) :
    Option α :=
  (fs.lookup key).bind read

/-- A field that has a value of its own where it is missing. -/
def optional {α : Type} (fs : List (String × Term)) (key : String) (default : α)
    (read : Term → Option α) : Option α :=
  match fs.lookup key with
  | none => some default
  | some t => read t

def byteBound : Nat := 0x100
def halfBound : Nat := 0x10000

def size? : Term → Option Size
  | .tuple (some unit) [t] => do
    let n ← t.below? wordBound
    match unit with
    | "B" => return .bytes n
    | "KiB" => return .kib n
    | "MiB" => return .mib n
    | _ => none
  | _ => none

def probe? : Term → Option ProbeMethod
  | .word "Rdid" => some .rdid
  | .word "Rdid4" => some .rdid4
  | .word "Rems" => some .rems
  | .word "Res1" => some .res1
  | .word "Res2" => some .res2
  | .word "Res3" => some .res3
  | _ => none

def features? (t : Term) : Option Features := do
  let fs ← t.fields? "FeaturesDef" ["wrsr_wren", "wrsr_ewsr", "otp", "qpi"]
  let flag (key : String) := optional fs key false Term.truth?
  return ⟨← flag "wrsr_wren", ← flag "wrsr_ewsr", ← flag "otp", ← flag "qpi"⟩

def voltage? (t : Term) : Option (Nat × Nat) := do
  let fs ← t.fields? "VoltageDef" ["min", "max"]
  return (← required fs "min" (·.below? halfBound), ← required fs "max" (·.below? halfBound))

def region? (t : Term) : Option RegionDefinition := do
  let fs ← t.fields? "RegionDef" ["start", "size", "count", "opcode"]
  let start ← optional fs "start" 0 (·.below? wordBound)
  let size ← required fs "size" size?
  let count ← required fs "count" (·.below? wordBound)
  let opcode ← required fs "opcode" (·.below? byteBound)
  return { start, size, count, opcode := opcode.toUInt8 }

def chip? (t : Term) : Option ChipDefinition := do
  let fs ← t.fields? "ChipDef" ["id", "name", "device_id", "total_size", "page_size", "probe",
    "features", "voltage", "erase_regions"]
  let id ← required fs "id" Term.text?
  let name ← required fs "name" Term.text?
  let deviceId ← required fs "device_id" (·.below? wordBound)
  let totalSize ← required fs "total_size" size?
  let pageSize ← optional fs "page_size" 256 (·.below? wordBound)
  let probe ← optional fs "probe" .rdid probe?
  let features ← optional fs "features" {} features?
  let (voltageMin, voltageMax) ← optional fs "voltage" (2700, 3600) voltage?
  let regions ← (← required fs "erase_regions" Term.items?).mapM region?
  return { id, name, deviceId, totalSize, pageSize, probe, features, voltageMin, voltageMax,
           regions }

def vendor? (t : Term) : Option VendorDefinition := do
  let fs ← t.fields? "VendorDef" ["vendor", "manufacturer_id", "chips"]
  let vendor ← required fs "vendor" Term.text?
  let manufacturerId ← required fs "manufacturer_id" (·.below? wordBound)
  let chips ← (← required fs "chips" Term.items?).mapM chip?
  return { vendor, manufacturerId, chips }

/-- Reads the text of a vendor file. What is missing, doubled or of another kind refuses the whole
file; fields that no definition knows are passed over. -/
def parse? : Parser := fun s => (read? s).bind vendor?

end NorFlash.VendorFile
