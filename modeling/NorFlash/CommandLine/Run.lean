import NorFlash.CommandLine.Listing
import NorFlash.CommandLine.Options
import NorFlash.Database.Directory
import NorFlash.Simulation.Machine
import NorFlash.VendorFile.Parse

namespace NorFlash.CommandLine

structure Outcome where
  exit : Nat
  output : String := ""
  deriving DecidableEq, Repr

def successExit : Nat := 0
def failureExit : Nat := 1
def usageExit : Nat := 2
def abortExit : Nat := 134

def exitCode : Except (Halt Failure) Unit → Nat
  | .ok () => successExit
  | .error (.error f) => f.exitCode
  | .error .stalled => timeoutExit
  | .error .crashed => abortExit

def failureNotices : Except (Halt Failure) Unit → List Notice
  | .error (.error f) => [.error fun _ => f.message]
  | _ => []

/-- The built-in chips and those of the vendor files in a directory. -/
def database (dir : Option String) (files : Files) : Except DatabaseError (Database × List Notice) :=
  match dir with
  | none => .ok (.builtin, [])
  | some dir =>
    match Database.builtin.loadDirectory VendorFile.parse? files dir with
    | (.ok n, d) => .ok (d, [.info fun _ => s!"Loaded {n} chip definitions from {dir}"])
    | (.error e, _) => .error e

def catalogNotice (d : Database) : Notice := .debug fun _ => s!"Chip catalog holds {d.size} chips"

def tell (ns : List Notice) (m : Machine) : Machine := ns.foldl (fun m n => m.note n) m

/-- Runs a queue in a session of its own. -/
def execute (q : Queue) (chips : List Chip) (m : Machine) : Outcome × Machine :=
  let shop := Machine.workshop chips
  let (r, (s, m)) := q.run shop ({}, m)
  (⟨exitCode r, ""⟩, tell (failureNotices r) (Session.drop shop s m))

/-- Does what the options ask for, with these chips. -/
def perform (o : Options) (chips : List Chip) (m : Machine) : Outcome × Machine :=
  if o.list then (⟨successExit, Listing.lines (Listing.everything chips)⟩, m)
  else match Strategy.ofName? o.strategyName with
    | none =>
      (⟨failureExit, Listing.lines Listing.strategies⟩,
        tell [.error fun _ => s!"Unknown write strategy: {o.strategyName}"] m)
    | some x => execute (o.queue x) chips m

def runOptions (o : Options) (m : Machine) : Outcome × Machine :=
  match database o.vendorFiles m.files with
  | .error e =>
    let f : Failure := .database e
    (⟨f.exitCode, ""⟩, tell [.error fun _ => f.message] m)
  | .ok (d, notices) => perform o d.chips (tell (notices ++ [catalogNotice d]) m)

/-- A run without arguments lists everything. -/
def run (args : List String) (m : Machine) : Outcome × Machine :=
  if args.isEmpty then (⟨failureExit, Listing.lines (Listing.everything Chip.catalog)⟩, m)
  else match Options.ofArgs? args with
    | none => (⟨usageExit, ""⟩, m)
    | some o => runOptions o m

end NorFlash.CommandLine
