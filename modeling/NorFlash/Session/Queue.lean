import NorFlash.Session.Basic

namespace NorFlash

inductive Operation where
  | read (path : String)
  | write (path : String)
  | verify (path : String)
  | setStrategy (x : Strategy)
  | setChip (name : String)
  | setProgrammer (args : String)
  deriving DecidableEq, Repr

namespace Operation

def text : Operation → String
  | read path => s!"read {path}"
  | write path => s!"write {path}"
  | verify path => s!"verify {path}"
  | setStrategy x => s!"write strategy {x.name}"
  | setChip name => s!"chip {name}"
  | setProgrammer args => s!"programmer {args}"

/-- The file of an operation on one. -/
def path? : Operation → Option String
  | read path | write path | verify path => some path
  | _ => none

variable {ω μ : Type} (shop : Workshop ω μ)

def execute : Operation → Session.Step ω μ Unit
  | read path => Session.readToFile shop path
  | write path => do
    let _ ← Session.writeFromFile shop path
  | verify path => do
    let _ ← Session.verifyFile shop path
  | setStrategy x => Session.setStrategy shop x
  | setChip name => Session.setChip shop name
  | setProgrammer args => Session.setProgrammer shop args

end Operation

/-- Operations in the order in which they are executed. -/
structure Queue where
  operations : List Operation
  deriving DecidableEq, Repr

namespace Queue

/-- The three selections. -/
def new (programmer chip : String) (x : Strategy) : Queue :=
  ⟨[.setProgrammer programmer, .setChip chip, .setStrategy x]⟩

def push (q : Queue) (op : Operation) : Queue := ⟨q.operations ++ [op]⟩

variable {ω μ : Type} (shop : Workshop ω μ)

def failedNotice (op : Operation) (f : Failure) : Notice :=
  .error fun _ => s!"{op.text} failed: {f.message}"

def skippedNotice (n : Nat) : Notice := .debug fun _ => s!"Skipping {n} remaining operations"

/-- What a failed operation tells, before as many others as are skipped. -/
def failureNotices (op : Operation) (rest : List Operation) : Halt Failure → List Notice
  | .error f =>
    failedNotice op f :: if rest.isEmpty then [] else [skippedNotice rest.length]
  | _ => []

/-- Executes operations up to the first that fails. -/
def runAll : List Operation → Session.Step ω μ Unit
  | [] => pure ()
  | op :: rest => fun (s, w) =>
    match op.execute shop (s, shop.note (.debug fun _ => s!"Executing {op.text}") w) with
    | (.ok (), s) => runAll rest s
    | (.error e, (s, w)) =>
      (.error e, (s, (failureNotices op rest e).foldl (fun w n => shop.note n w) w))

/-- Executes the queue and shuts the programmer down. A failed operation counts more than a failed
shutdown. -/
def run (q : Queue) : Session.Step ω μ Unit := fun s =>
  let (r, s) := runAll shop q.operations s
  let (closed, s) := Session.shutdown shop s
  (r.bind fun _ => closed, s)

end Queue
end NorFlash
