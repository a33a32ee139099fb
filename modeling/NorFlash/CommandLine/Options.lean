import NorFlash.Session.Queue

namespace NorFlash.CommandLine

/-- An option that stands alone. -/
inductive Switch where
  | verbose | list
  deriving DecidableEq, Repr

/-- An option that takes a value. -/
inductive Field where
  | read | write | verify | programmer | chip | strategy | vendorFiles
  deriving DecidableEq, Repr

inductive OptionName where
  | switch (x : Switch)
  | field (x : Field)
  deriving DecidableEq, Repr

def letters : List (Char × OptionName) :=
  [('r', .field .read), ('w', .field .write), ('v', .field .verify), ('p', .field .programmer),
    ('c', .field .chip), ('s', .field .strategy), ('V', .switch .verbose), ('L', .switch .list)]

def words : List (String × OptionName) :=
  [("read", .field .read), ("write", .field .write), ("verify", .field .verify),
    ("programmer", .field .programmer), ("chip", .field .chip),
    ("write-strategy", .field .strategy), ("verbose", .switch .verbose),
    ("chip-db", .field .vendorFiles), ("list", .switch .list)]

/-- An option as it was given. -/
inductive Given where
  | switch (x : Switch)
  | field (x : Field) (value : String)
  deriving DecidableEq, Repr

/-- What one argument gives. The last of its options may wait for the next argument. -/
structure Piece where
  given : List Given := []
  waiting : Option Field := none
  deriving DecidableEq, Repr

/-- Letters behind one dash. The first that takes a value takes all that is left, without an equals
sign in front. -/
def cluster : List Char → Option Piece
  | [] => some {}
  | c :: cs =>
    match letters.lookup c, cs with
    | none, _ => none
    | some (.switch x), cs => (cluster cs).map fun p => { p with given := .switch x :: p.given }
    | some (.field x), [] => some { waiting := some x }
    | some (.field x), '=' :: value => some { given := [.field x (String.ofList value)] }
    | some (.field x), value => some { given := [.field x (String.ofList value)] }

/-- A word behind two dashes, with a value after an equals sign if there is one. -/
def word (cs : List Char) : Option Piece :=
  let name := String.ofList (cs.takeWhile (· != '='))
  match words.lookup name, (cs.dropWhile (· != '=')).tail? with
  | some (.switch x), none => some { given := [.switch x] }
  | some (.field x), none => some { waiting := some x }
  | some (.field x), some value => some { given := [.field x (String.ofList value)] }
  | _, _ => none

def piece (arg : String) : Option Piece :=
  match arg.toList with
  | '-' :: '-' :: cs => word cs
  | '-' :: c :: cs => cluster (c :: cs)
  | _ => none

/-- An argument that looks like an option is no value; a single dash is one. -/
def isValue (arg : String) : Bool := arg == "-" || !arg.startsWith "-"

/-- The argument behind which no options follow. -/
def endOfOptions : String := "--"

/-- Everything that was given, in order, or nothing if the arguments are not understood. -/
def given? : List String → Option (List Given)
  | [] => some []
  | arg :: args =>
    if arg == endOfOptions then if args.isEmpty then some [] else none
    else match piece arg, args with
      | none, _ => none
      | some ⟨given, none⟩, args => (given? args).map (given ++ ·)
      | some ⟨_, some _⟩, [] => none
      | some ⟨given, some x⟩, value :: args =>
        if isValue value then (given? args).map fun gs => given ++ .field x value :: gs else none

theorem length_nil_eq : ([] : List Nat).length = ([] : List String).length := rfl

/-- The values of an option that may be given again and again, each with its place on the command
line. -/
structure Occurrences where
  places : List Nat := []
  values : List String := []
  length_eq : places.length = values.length := by exact length_nil_eq
  deriving DecidableEq, Repr

namespace Occurrences

def add (x : Occurrences) (place : Nat) (value : String) : Occurrences :=
  ⟨x.places ++ [place], x.values ++ [value], by simp [x.length_eq]⟩

/-- What is asked for with each value, beside its place. -/
def operations (x : Occurrences) (op : String → Operation) : List (Nat × Operation) :=
  x.places.zip (x.values.map op)

end Occurrences

/-- Files to read the chip into, to write to it and to compare it with. Each option keeps its own,
so only their places tell in which order they were asked for. -/
structure FileOptions where
  read : Occurrences := {}
  write : Occurrences := {}
  verify : Occurrences := {}
  deriving DecidableEq, Repr

namespace FileOptions

/-- What is asked for with each of the options, one after the other. -/
def found (x : FileOptions) : List (Nat × Operation) :=
  x.read.operations .read ++ x.write.operations .write ++ x.verify.operations .verify

/-- What is asked for, by its place on the command line. -/
def operations (x : FileOptions) : List Operation :=
  (x.found.mergeSort fun a b => a.1 ≤ b.1).map (·.2)

end FileOptions

structure Options where
  programmer : Option String := none
  chip : Option String := none
  strategy : Option String := none
  verbosity : Nat := 0
  /-- A directory with vendor files. -/
  vendorFiles : Option String := none
  list : Bool := false
  files : FileOptions := {}
  deriving DecidableEq, Repr

namespace Options

/-- An option that may be given once. -/
def once (before : Option String) (value : String) : Option (Option String) :=
  if before.isNone then some (some value) else none

/-- A path has a character at least. -/
def path (value : String) : Option String := if value.isEmpty then none else some value

/-- The options with one more, which stands at a place, or nothing if it may not be given. -/
def add (o : Options) (place : Nat) : Given → Option Options
  | .switch .verbose => some { o with verbosity := o.verbosity + 1 }
  | .switch .list => if o.list then none else some { o with list := true }
  | .field .read v => return { o with files.read := o.files.read.add place (← path v) }
  | .field .write v => return { o with files.write := o.files.write.add place (← path v) }
  | .field .verify v => return { o with files.verify := o.files.verify.add place (← path v) }
  | .field .programmer v => return { o with programmer := ← once o.programmer v }
  | .field .chip v => return { o with chip := ← once o.chip v }
  | .field .strategy v => return { o with strategy := ← once o.strategy v }
  | .field .vendorFiles v => return { o with vendorFiles := ← once o.vendorFiles (← path v) }

/-- The options that were given, each at its place. -/
def ofPlaced? (gs : List (Nat × Given)) : Option Options :=
  gs.foldlM (fun o g => o.add g.1 g.2) {}

/-- What was given, numbered in its order. -/
def placed (gs : List Given) : List (Nat × Given) := (List.range gs.length).zip gs

def ofArgs? (args : List String) : Option Options := do
  ofPlaced? (placed (← given? args))

def programmerArgs (o : Options) : String := o.programmer.getD automatic

def chipName (o : Options) : String := o.chip.getD automatic

def strategyName (o : Options) : String := o.strategy.getD Strategy.default.name

/-- How much is told. -/
def level (o : Options) : Level :=
  match o.verbosity with
  | 0 => .info
  | 1 => .debug
  | _ => .trace

/-- The run that is asked for: the selections, then the operations in their order. -/
def queue (o : Options) (x : Strategy) : Queue :=
  o.files.operations.foldl Queue.push (Queue.new o.programmerArgs o.chipName x)

/-- Files that the run reads or writes. -/
def paths (o : Options) : List String :=
  o.files.operations.filterMap Operation.path? ++ (Parameters.value? o.programmerArgs "image").toList

end Options
end NorFlash.CommandLine
