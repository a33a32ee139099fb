import NorFlash.Chip.Basic
import NorFlash.Protocol.Cells
import NorFlash.Transfer.Walk

namespace NorFlash.Programmer

variable {σ : Type} (p : Programmer σ)

/-- Refuses a range that is not inside the chip. -/
def checkRange (chip : Chip) (addr len : Nat) : Act σ Stop Unit := fun s =>
  if chip.holds addr len then (.ok (), s)
  else (.error (.error .addressOutOfBounds), p.note (chip.outsideNotice addr len) s)

/-- Reads one piece into its place in the buffer. -/
def readChunk (buffer : Bytes) (c : Chunk) : Act σ Stop Bytes := do
  p.tell c.notice
  let piece ← Stop.require (Bytes.slice? buffer c.offset (c.offset + c.len))
  let reply ← p.readInto c.addr piece
  p.progress (.read (c.offset + c.len))
  Stop.require (Bytes.overlay? buffer c.offset reply)

def readRangeNotice (len : Nat) (e : Error) : Notice :=
  .error fun _ => s!"Couldn't read the {len} bytes from the chip: {e.message}"

/-- Reads as many bytes as the buffer has, piece by piece. -/
def readRange (chip : Chip) (addr : Nat) (buffer : Bytes) : Act σ Stop Bytes := do
  let len := buffer.size
  p.checkRange chip addr len
  let most ← Act.read p.maxRead
  p.onError (do
    let t ← Stop.lift (Transfer.of? addr len chip.pageSize most)
    t.walk p.readChunk buffer) (readRangeNotice len)

/-- The bytes `[addr, addr + len)`. -/
def readChunked (chip : Chip) (addr len : Nat) : Act σ Stop Bytes :=
  p.readRange chip addr (Bytes.filled len 0)

def readChip (chip : Chip) : Act σ Stop Bytes := do
  p.progress (.reading chip.size)
  p.readChunked chip 0 chip.size

/-- Programs one piece of the data. -/
def writeChunk (data : Bytes) (c : Chunk) : Act σ Stop Unit := do
  p.tell c.notice
  let piece ← Stop.require (Bytes.slice? data c.offset (c.offset + c.len))
  p.programPage c.addr piece
  p.progress (.written (c.offset + c.len))

def writeRangeNotice (len : Nat) (e : Error) : Notice :=
  .error fun _ => s!"Couldn't write the {len} bytes to the chip: {e.message}"

/-- Programs a range that is erased, each piece by one page program. -/
def writeChunked (chip : Chip) (addr : Nat) (data : Bytes) : Act σ Stop Unit := do
  p.checkRange chip addr data.size
  let most ← Act.read p.maxWrite
  p.onError (do
    let t ← Stop.lift (Transfer.of? addr data.size chip.pageSize most)
    t.walk (fun _ c => p.writeChunk data c) ()) (writeRangeNotice data.size)

end NorFlash.Programmer

namespace NorFlash

/-- What comparing a range says. -/
inductive Verdict where
  | agrees
  /-- The first byte that differs. -/
  | differs (addr : Nat) (expected found : UInt8)
  deriving DecidableEq, Repr

namespace Programmer

variable {σ : Type} (p : Programmer σ)

/-- Compares what the chip holds from `addr` on with `expected`. -/
def verify (chip : Chip) (addr : Nat) (expected : Bytes) : Act σ Stop Verdict := do
  p.progress (.reading expected.size)
  let found ← p.readChunked chip addr expected.size
  match Bytes.firstDifference? expected found with
  | none => return .agrees
  | some i =>
    let at' ← Stop.word (addr + i) addressSpace
    return .differs at' (expected.byteAt i) (found.byteAt i)

end Programmer
end NorFlash
