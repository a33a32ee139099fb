import NorFlash.Chip.Basic
import NorFlash.Protocol.Status

namespace NorFlash

def oddParity (b : UInt8) : Bool := ((List.range 8).filter (b.toNat.testBit ·)).length % 2 == 1

/-- Manufacturer and model from an answer of four bytes, of which `bytes` were asked for. After a
continuation byte the manufacturer takes two bytes. -/
def decodeRdid (b0 b1 b2 b3 : UInt8) (bytes : Nat) : Nat × Nat :=
  if b0 == Opcode.continuation then
    (b0.toNat * 0x100 + b1.toNat, if 3 < bytes then b2.toNat * 0x100 + b3.toNat else b2.toNat)
  else (b0.toNat, b1.toNat * 0x100 + b2.toNat)

def parityNotice (i : Nat) : Notice := .debug fun _ => s!"RDID byte {i} parity violation"

/-- Every byte of a manufacturer has odd parity; what decoding tells where one has not. -/
def rdidNotices (b0 b1 : UInt8) : List Notice :=
  (if oddParity b0 then [] else [parityNotice 0]) ++
    if b0 == Opcode.continuation && !oddParity b1 then [parityNotice 1] else []

/-- Nobody answered: all bytes zero, or all bytes `0xFF`. -/
def blankAnswer (bs : Bytes) : Bool := bs.toList.all (· == 0xFF) || bs.toList.all (· == 0)

namespace Programmer

variable {σ : Type} (p : Programmer σ)

/-- The byte that an identification buffer holds before the answer. -/
def unanswered : UInt8 := 0xAF

def answerNotice (name : String) (bs : Bytes) : Notice :=
  .debug fun _ => s!"{name} returned: {Text.byteList bs}"

/-- The first `bytes` of a buffer are filled by the answer; the rest stays. -/
def identify (name : String) (command : Bytes → Command) (buffer : Bytes) (bytes : Nat) :
    Act σ Stop Bytes := do
  let front ← Stop.require (Bytes.slice? buffer 0 bytes)
  let answer ← p.send (command front)
  p.tell (answerNotice name answer)
  return answer ++ Bytes.drop buffer bytes

/-- Identification by manufacturer and device, in a buffer of four bytes. -/
def readRdid (bytes : Nat) : Act σ Stop Bytes :=
  p.identify "RDID" (.readRegister Opcode.readId) (Bytes.filled 4 unanswered) bytes

/-- One byte each for manufacturer and device. -/
def readRems : Act σ Stop Bytes :=
  p.identify "REMS" (.readAt Opcode.readManufacturer 0) (Bytes.filled 2 0) 2

/-- The electronic signature, in a buffer of three bytes. -/
def readRes (bytes : Nat) : Act σ Stop Bytes :=
  p.identify "RES" (.readAt Opcode.readSignature 0) (Bytes.filled 3 0) bytes

def idsNotice (chip : Chip) (width id1 id2 : Nat) : Notice :=
  .debug fun _ => s!"{chip.id}: id1 0x{Text.hex width id1}, id2 0x{Text.hex width id2}"

def probeRdid (chip : Chip) (bytes : Nat) : Act σ Stop Bool := do
  let raw ← p.readRdid bytes
  let b0 := raw.byteAt 0
  let b1 := raw.byteAt 1
  let (id1, id2) := decodeRdid b0 b1 (raw.byteAt 2) (raw.byteAt 3) bytes
  p.tellAll (rdidNotices b0 b1)
  p.tell (idsNotice chip 2 id1 id2)
  return chip.matchesIds id1 id2

def probeRems (chip : Chip) : Act σ Stop Bool := do
  let raw ← p.readRems
  let id1 := (raw.byteAt 0).toNat
  let id2 := (raw.byteAt 1).toNat
  p.tell (idsNotice chip 0 id1 id2)
  return chip.matchesIds id1 id2

def ignoredNotice (name : String) : Notice := .debug fun _ => s!"Ignoring RES in favour of {name}"

/-- Whether another way of identification has an answer. -/
def answered (name : String) (x : Act σ Stop Bytes) (bytes : Nat) : Act σ Stop Bool := fun s =>
  match x s with
  | (.ok raw, s') =>
    if blankAnswer (raw.take bytes) then (.ok false, s') else (.ok true, p.note (ignoredNotice name) s')
  | (.error (.error _), s') => (.ok false, s')
  | (.error stop, s') => (.error stop, s')

/-- One byte of signature says little, so it only counts where nothing else answers. -/
def probeRes1 (chip : Chip) : Act σ Stop Bool := do
  if ← p.answered "RDID" (p.readRdid 3) 3 then return false
  if ← p.answered "REMS" p.readRems 2 then return false
  let raw ← p.readRes 1
  let id := (raw.byteAt 0).toNat
  p.tell (.debug fun _ => s!"{chip.id}: id 0x{Text.hex 0 id}")
  return id == chip.model

/-- Manufacturer and model must be this chip's own; no value stands for others. -/
def probeSignature (chip : Chip) (id1 id2 : Nat) : Act σ Stop Bool := do
  p.tell (idsNotice chip 0 id1 id2)
  return id1 == chip.manufacturer && id2 == chip.model

def probeRes2 (chip : Chip) : Act σ Stop Bool := do
  let raw ← p.readRes 2
  p.probeSignature chip (raw.byteAt 0).toNat (raw.byteAt 1).toNat

def probeRes3 (chip : Chip) : Act σ Stop Bool := do
  let raw ← p.readRes 3
  p.probeSignature chip ((raw.byteAt 0).toNat * 0x100 + (raw.byteAt 1).toNat) (raw.byteAt 2).toNat

def probeBy (chip : Chip) : ProbeMethod → Act σ Stop Bool
  | .rdid => p.probeRdid chip 3
  | .rdid4 => p.probeRdid chip 4
  | .rems => p.probeRems chip
  | .res1 => p.probeRes1 chip
  | .res2 => p.probeRes2 chip
  | .res3 => p.probeRes3 chip

def probeFailedNotice (chip : Chip) (e : Error) : Notice :=
  .debug fun _ => s!"Probing {chip.id} with {chip.probe.name} failed: {e.message}"

/-- Whether `chip` is the one on the bus. A failed transfer says no. -/
def probeChip (chip : Chip) : Act σ Stop Bool := fun s =>
  match p.probeBy chip chip.probe s with
  | (.error (.error e), s') => (.ok false, p.note (probeFailedNotice chip e) s')
  | r => r

end Programmer
end NorFlash
