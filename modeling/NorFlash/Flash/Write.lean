import NorFlash.Flash.Erase
import NorFlash.Flash.Strategy
import NorFlash.Numeric.Total

namespace NorFlash.Programmer

variable {σ : Type} (p : Programmer σ)

/-- Erases every block under the range, then programs the data. -/
def wipeByBiggestErases (chip : Chip) (start : Nat) (data : Bytes) : Act σ Stop WriteStats := do
  let len ← Stop.word data.size addressSpace
  let plan ← p.plan chip start len false
  let erased ← p.executePlan chip plan
  p.progress (.writing data.size)
  p.writeChunked chip start data
  return { erases := plan.blocks.length, erased, written := data.size }

/-- The part of the caller's data `[start, stop)` that lies in the block, as offsets into it. -/
def shareOf (b : Block) (start stop : Nat) : Nat × Nat :=
  (max b.start start - start, min b.stop stop - start)

/-- Whether the block lies inside the range and holds the wanted content already. -/
def unchanged (image data : Bytes) (start stop : Nat) (b : Block) : Act σ Stop Bool := do
  let (lo, hi) := shareOf b start stop
  let current ← Stop.require (Bytes.slice? image b.start b.stop)
  if start ≤ b.start && b.stop ≤ stop then
    let wanted ← Stop.require (Bytes.slice? data lo hi)
    return Bytes.same current wanted
  else return false

def unchangedNotice (b : Block) : Notice :=
  .debug fun _ => s!"Block {Text.span b.start b.stop} unchanged, skipping"

/-- Adds the block to the ones to update, which are kept last first, unless it may stay. -/
def sortBlock (image data : Bytes) (start stop : Nat) (update : List Block) (b : Block) :
    Act σ Stop (List Block) := do
  if ← unchanged image data start stop b then
    p.tell (unchangedNotice b)
    return update
  else return b :: update

/-- The blocks that cannot stay as they are, in order. -/
def blocksToUpdate (image data : Bytes) (start stop : Nat) (blocks : List Block) :
    Act σ Stop (List Block) := do
  let update ← Act.fold (p.sortBlock image data start stop) [] blocks
  return update.reverse

/-- Lays the block's share of the data over the image of the chip. -/
def merge (image data : Bytes) (start stop : Nat) (b : Block) : Act σ Stop Bytes := do
  let (lo, hi) := shareOf b start stop
  let part ← Stop.require (Bytes.slice? data lo hi)
  Stop.require (Bytes.overlay? image (start + lo) part)

/-- Erases one block and brings its new content into the image. -/
def refresh (chip : Chip) (data : Bytes) (start stop : Nat) (state : Erased × Bytes) (b : Block) :
    Act σ Stop (Erased × Bytes) := do
  let (done, image) := state
  let done ← p.eraseNext chip done b
  let image ← merge image data start stop b
  return (done, image)

/-- Programs one block from the image and reports the new total. -/
def reprogram (chip : Chip) (image : Bytes) (written : Nat) (b : Block) : Act σ Stop Nat := do
  let content ← Stop.require (Bytes.slice? image b.start b.stop)
  p.quiet.writeChunked chip b.start content
  let written := written + b.size
  p.progress (.written written)
  return written

/-- Reads the chip, then erases and reprograms the blocks whose content changes. What such a block
holds outside the range is programmed back. -/
def wipeIfChanges (chip : Chip) (start : Nat) (data : Bytes) : Act σ Stop WriteStats := do
  let stop := start + data.size
  let len ← Stop.word data.size addressSpace
  let plan ← p.plan chip start len false
  p.checkRange chip plan.start plan.erasedBytes
  let image ← p.readChip chip
  let update ← p.blocksToUpdate image data start stop plan.blocks
  let bytes := total (update.map Block.size)
  p.progress (.erasing update.length bytes)
  let (done, image) ← Act.fold (p.refresh chip data start stop) ({}, image) update
  p.progress (.writing bytes)
  let written ← Act.fold (p.reprogram chip image) 0 update
  let skipped := plan.blocks.length - update.length
  return { erases := done.blocks, skipped, erased := done.bytes, written }

def writingNotice (start : Nat) (data : Bytes) (strategy : Strategy) : Notice :=
  .debug fun _ => s!"Writing {Text.span start (start + data.size)} with {strategy.name}"

def writeBy (chip : Chip) (start : Nat) (data : Bytes) : Strategy → Act σ Stop WriteStats
  | .wipeByBiggestErases => p.wipeByBiggestErases chip start data
  | .wipeIfChanges => p.wipeIfChanges chip start data

/-- Writes `data` from `start` on. Nothing is done for empty data. -/
def write (chip : Chip) (strategy : Strategy) (start : Nat) (data : Bytes) :
    Act σ Stop WriteStats := do
  p.checkRange chip start data.size
  if data.size == 0 then
    p.progress (.complete {})
    return {}
  else
    p.tell (writingNotice start data strategy)
    let stats ← p.writeBy chip start data strategy
    p.progress (.complete stats)
    return stats

end NorFlash.Programmer
