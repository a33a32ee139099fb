import NorFlash.Act
import NorFlash.Error
import NorFlash.Log.Notice
import NorFlash.Spi.Command

namespace NorFlash

/-- Why an operation ended without a result. -/
inductive Halt (ε : Type) where
  | error (e : ε)
  /-- The status was asked for as often as the programmer's patience allows and never came right. -/
  | stalled
  /-- A buffer was reached outside its bounds, or a number did not fit its place. -/
  | crashed
  deriving DecidableEq, Repr

def Halt.map {ε ε' : Type} (f : ε → ε') : Halt ε → Halt ε'
  | .error e => .error (f e)
  | .stalled => .stalled
  | .crashed => .crashed

abbrev Stop : Type := Halt Error

/-- What a write did. -/
structure WriteStats where
  erases : Nat := 0
  /-- Blocks left alone because they held the wanted content already. -/
  skipped : Nat := 0
  erased : Nat := 0
  written : Nat := 0
  deriving DecidableEq, Repr

/-- Whether the write touched the chip. -/
def WriteStats.modified (s : WriteStats) : Bool := 0 < s.erases || 0 < s.written

/-- What a long operation reports while it runs. -/
inductive Progress where
  | reading (total : Nat)
  | read (done : Nat)
  | erasing (blocks bytes : Nat)
  | erased (blocks bytes : Nat)
  | writing (total : Nat)
  | written (done : Nat)
  | complete (stats : WriteStats)
  deriving DecidableEq, Repr

/-- Looks at the status register for which a running program or erase is waited for. -/
def endlessPolls : Nat := 0x100000000

/-- Whatever carries commands to a chip, by what it does to a state that only it looks into. -/
structure Programmer (σ : Type) where
  /-- Most data bytes one transaction can bring back; zero if that was never said. -/
  maxRead : σ → Nat
  /-- Most data bytes one transaction can send; zero if that was never said. -/
  maxWrite : σ → Nat
  /-- Runs one command and gives the bytes that arrived for the front of its buffer. -/
  execute : Command → Act σ Stop Bytes
  /-- Waits so many microseconds. -/
  delay : Nat → σ → σ
  report : Progress → σ → σ
  note : Notice → σ → σ
  patience : Nat := endlessPolls

namespace Programmer

variable {σ α : Type} (p : Programmer σ)

/-- Runs a command and gives its buffer as it stands afterwards. -/
@[inline] def send (c : Command) : Act σ Stop Bytes := fun s =>
  match p.execute c s with
  | (.ok reply, s') => (.ok (Bytes.overlayFront c.buffer reply), s')
  | (.error e, s') => (.error e, s')

def tell (n : Notice) : Act σ Stop Unit := Act.modify (p.note n)

def tellAll (ns : List Notice) : Act σ Stop Unit :=
  Act.modify fun s => ns.foldl (fun s n => p.note n s) s

def progress (e : Progress) : Act σ Stop Unit := Act.modify (p.report e)

/-- The same programmer, telling nothing of its progress. -/
def quiet : Programmer σ := { p with report := fun _ s => s }

end Programmer

/-- A result that needed no programmer. -/
def Stop.lift {σ α : Type} (r : Except Error α) : Act σ Stop α := Act.ofExcept (r.mapError .error)

/-- Tells of an error; nothing is told of the other ways to stop. -/
def Programmer.onError {σ α : Type} (p : Programmer σ) (x : Act σ Stop α) (f : Error → Notice) :
    Act σ Stop α :=
  x.onError fun e s =>
    match e with
    | .error e => p.note (f e) s
    | _ => s

/-- The piece that must be there. -/
def Stop.require {σ α : Type} (r : Option α) : Act σ Stop α :=
  match r with
  | some a => pure a
  | none => Act.fail .crashed

/-- A number that must stay below a bound. -/
def Stop.word {σ : Type} (n bound : Nat) : Act σ Stop Nat :=
  if n < bound then pure n else Act.fail .crashed

end NorFlash
