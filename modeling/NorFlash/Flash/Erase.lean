import NorFlash.Erase.Narration
import NorFlash.Flash.Access

namespace NorFlash.Programmer

variable {σ : Type} (p : Programmer σ)

/-- Plans the erase of a range and tells about the choice. -/
def plan (chip : Chip) (start len : Nat) (exact : Bool) : Act σ Stop Plan := do
  p.tellAll (Plan.notices chip.regions start len)
  Stop.lift (Plan.make chip.regions start len exact)

def erasingNotice (b : Block) : Notice :=
  .debug fun _ => s!"Erasing {Text.span b.start b.stop} with {Text.opcode b.function.opcode}"

/-- What has been erased so far. -/
structure Erased where
  blocks : Nat := 0
  bytes : Nat := 0
  deriving DecidableEq, Repr

/-- Erases one block and reports the new totals. -/
def eraseNext (chip : Chip) (done : Erased) (b : Block) : Act σ Stop Erased := do
  p.eraseBlock b.function b.start b.size chip.size
  let done : Erased := ⟨done.blocks + 1, done.bytes + b.size⟩
  p.progress (.erased done.blocks done.bytes)
  return done

def executeBlock (chip : Chip) (done : Erased) (b : Block) : Act σ Stop Erased := do
  p.tell (erasingNotice b)
  p.eraseNext chip done b

/-- Erases the blocks of a plan in order and gives the number of erased bytes. -/
def executePlan (chip : Chip) (plan : Plan) : Act σ Stop Nat := do
  p.checkRange chip plan.start plan.erasedBytes
  p.progress (.erasing plan.blocks.length plan.erasedBytes)
  let done ← Act.fold (p.executeBlock chip) {} plan.blocks
  return done.bytes

/-- Erases at least `[start, start + len)` and gives start and length of what was erased. -/
def erase (chip : Chip) (start len : Nat) (exact : Bool) : Act σ Stop (Nat × Nat) := do
  p.checkRange chip start len
  let plan ← p.plan chip start len exact
  let _ ← p.quiet.executePlan chip plan
  let erased ← Stop.word plan.erasedBytes addressSpace
  return (plan.start, erased)

end NorFlash.Programmer
