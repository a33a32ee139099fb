import NorFlash.Chip.Basic
import NorFlash.Programmer
import NorFlash.Spi.Opcode

namespace NorFlash

/-- One thing done to the cells. -/
inductive Entry where
  | read (addr len : Nat)
  | program (addr len : Nat)
  | erase (opcode : UInt8) (addr len : Nat)
  deriving DecidableEq, Repr

/-- A chip in memory, and a journal of what was done to its cells. -/
structure Emulator where
  chip : Chip
  /-- Status reads that say busy after each program and erase. -/
  busyPolls : Nat := 0
  maxRead : Nat := 4096
  maxWrite : Nat
  cells : Bytes
  latch : Bool := false
  /-- Status reads that will still say busy. -/
  busy : Nat := 0
  journal : Array Entry := #[]

namespace Emulator

/-- The content of an erased cell. -/
def erased : UInt8 := 0xFF

/-- An erased chip; one transaction can program a page. -/
def ofChip (chip : Chip) : Emulator :=
  { chip, maxWrite := chip.pageSize, cells := Bytes.filled chip.size erased }

/-- Lays content over the front of the cells; what does not fit is left out. -/
def load (e : Emulator) (content : Bytes) : Emulator :=
  match e with
  | ⟨chip, busyPolls, maxRead, maxWrite, cells, latch, busy, journal⟩ =>
    ⟨chip, busyPolls, maxRead, maxWrite, Bytes.overlayFront cells content, latch, busy, journal⟩

/-- The identification instruction that the chip knows, and its answer. -/
def identity (chip : Chip) : UInt8 × List UInt8 :=
  let m := chip.manufacturer
  let d := chip.model
  let high (n : Nat) : UInt8 := (n / 0x100).toUInt8
  match chip.probe with
  | .rdid =>
    if 0xFF < m then (Opcode.readId, [high m, m.toUInt8, d.toUInt8, 0xFF])
    else (Opcode.readId, [m.toUInt8, high d, d.toUInt8, 0xFF])
  | .rdid4 =>
    if 0xFF < m then (Opcode.readId, [high m, m.toUInt8, high d, d.toUInt8])
    else (Opcode.readId, [m.toUInt8, high d, d.toUInt8, 0xFF])
  | .rems => (Opcode.readManufacturer, [m.toUInt8, d.toUInt8, 0xFF, 0xFF])
  | .res1 => (Opcode.readSignature, [d.toUInt8, 0xFF, 0xFF, 0xFF])
  | .res2 => (Opcode.readSignature, [m.toUInt8, d.toUInt8, 0xFF, 0xFF])
  | .res3 => (Opcode.readSignature, [high m, m.toUInt8, d.toUInt8, 0xFF])

/-- What an identification instruction brings back: the chip's answer to its own, and the floating
bus to any other. -/
def identification (chip : Chip) (opcode : UInt8) (n : Nat) : Bytes :=
  let (own, answer) := identity chip
  let known := if opcode == own then answer.take n else []
  Bytes.overlayFront (Bytes.filled n 0xFF) (Bytes.ofList known)

def status (e : Emulator) : UInt8 :=
  (if 0 < e.busy then Opcode.busyBit else 0) ||| if e.latch then Opcode.latchBit else 0

def read (addr len : Nat) : Act Emulator Stop Bytes := fun e =>
  if e.cells.size < addr + len then (.error (.error .addressOutOfBounds), e)
  else
    let reply := e.cells.extract addr (addr + len)
    (.ok reply, { e with journal := e.journal.push (.read addr len) })

/-- Where byte `i` of a program at `addr` falls: it never leaves the page. -/
def programPlace (page addr i : Nat) : Nat := addr - addr % page + (addr % page + i) % page

/-- The end of the cells that a program of `len` bytes reaches. -/
def programStop (page addr len : Nat) : Nat :=
  if addr % page + len ≤ page then addr + len else addr - addr % page + page

/-- Programs the last `n` of the data's bytes; programming can only clear bits. -/
def programCells (page addr : Nat) (data : Bytes) : (n : Nat) → Bytes → Bytes
  | 0, cells => cells
  | n + 1, cells =>
    let i := data.size - (n + 1)
    programCells page addr data n
      (cells.modifyAt (programPlace page addr i) (· &&& data.byteAt i))

/-- The cells are as `cells` says, and the program or erase that did it takes its time. -/
def settle (e : Emulator) (f : Bytes → Bytes) (entry : Entry) : Emulator :=
  match e with
  | ⟨chip, busyPolls, maxRead, maxWrite, cells, _, _, journal⟩ =>
    ⟨chip, busyPolls, maxRead, maxWrite, f cells, false, busyPolls, journal.push entry⟩

def program (addr : Nat) (data : Bytes) : Act Emulator Stop Bytes := fun e =>
  let page := e.chip.pageSize
  if !e.latch then (.error (.error .writeProtected), e)
  else if e.cells.size ≤ addr then (.error (.error .addressOutOfBounds), e)
  else if page == 0 || e.cells.size < programStop page addr data.size then (.error .crashed, e)
  else
    (.ok ByteArray.empty,
      e.settle (programCells page addr data data.size) (.program addr data.size))

/-- How many bytes an erase instruction erases on this chip. -/
def eraseSize? (chip : Chip) (f : EraseFunction) : Option Nat :=
  if f.erasesChip then some chip.size
  else (chip.activeRegions.find? fun r => r.function == f).map Region.blockSize

def eraseCells (f : EraseFunction) (addr size : Nat) : Act Emulator Stop Bytes := fun e =>
  let start := addr - addr % size
  if size == 0 then (.error .crashed, e)
  else if e.cells.size < start + size then (.error (.error .addressOutOfBounds), e)
  else
    (.ok ByteArray.empty,
      e.settle (fun cells => cells.fill start size erased) (.erase f.opcode start size))

def erase (f : EraseFunction) (addr : Nat) : Act Emulator Stop Bytes := fun e =>
  if f.needsWriteEnable && !e.latch then (.error (.error .writeProtected), e)
  else match eraseSize? e.chip f with
    | none => (.error (.error .opcodeNotSupported), e)
    | some size => eraseCells f addr size e

/-- What an instruction that is no erase does, if the chip knows it. -/
def common? (c : Command) : Option (Act Emulator Stop Bytes) :=
  let addr := c.address.getD 0
  if c.opcode == Opcode.readId || c.opcode == Opcode.readManufacturer ||
      c.opcode == Opcode.readSignature then
    some fun e => (.ok (identification e.chip c.opcode c.buffer.size), e)
  else if c.opcode == Opcode.readStatus then
    some fun e => (.ok (Bytes.filled 1 e.status), { e with busy := e.busy - 1 })
  else if c.opcode == Opcode.writeEnable then
    some fun e => (.ok ByteArray.empty, { e with latch := true })
  else if c.opcode == Opcode.writeDisable then
    some fun e => (.ok ByteArray.empty, { e with latch := false })
  else if c.opcode == Opcode.readData then some (read addr c.buffer.size)
  else if c.opcode == Opcode.pageProgram then some (program addr c.data)
  else none

def execute (c : Command) : Act Emulator Stop Bytes :=
  match common? c with
  | some x => x
  | none =>
    match EraseFunction.ofOpcode? c.opcode with
    | some f => erase f (c.address.getD 0)
    | none => Act.fail (.error .opcodeNotSupported)

def addressText : Option Nat → String
  | none => "None"
  | some addr => s!"Some({Text.hex 0 addr})"

/-- What the emulator tells about each command. -/
def notice (c : Command) : Notice :=
  .trace fun _ =>
    s!"dummy: opcode {Text.opcode c.opcode} addr {addressText c.address} " ++
      s!"write {c.data.size} read {c.buffer.size}"

/-- The emulated chip as a programmer of its own; it takes no time. -/
def programmer : Programmer Emulator where
  maxRead := maxRead
  maxWrite := maxWrite
  execute := execute
  delay _ e := e
  report _ e := e
  note _ e := e

/-- Start and length of each erase. -/
def erases (e : Emulator) : List (Nat × Nat) :=
  e.journal.toList.filterMap fun
    | .erase _ addr len => some (addr, len)
    | _ => none

end Emulator
end NorFlash
