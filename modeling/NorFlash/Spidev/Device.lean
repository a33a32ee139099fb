import NorFlash.Files.OsError
import NorFlash.Programmer
import NorFlash.Text.Blank
import NorFlash.Text.Decimal

namespace NorFlash

/-- A setting of the bus. -/
inductive SpidevControl where
  | mode (m : Nat)
  | bits (b : Nat)
  | speed (hertz : Nat)
  deriving DecidableEq, Repr

namespace SpidevControl

/-- The number of the request: a write of so many bytes to the driver's settings. -/
def number : SpidevControl → Nat
  | mode _ => 0x40016B01
  | bits _ => 0x40016B03
  | speed _ => 0x40046B04

def value : SpidevControl → Nat
  | mode m => m
  | bits b => b
  | speed h => h

end SpidevControl

/-- One part of a message: bytes to send or to receive. -/
structure SpidevSegment where
  sends : Bool
  length : Nat
  hertz : Nat
  bits : Nat := 8
  delay : Nat := 0
  /-- Whether the chip is deselected afterwards. -/
  deselects : Nat := 0
  deriving DecidableEq, Repr

/-- The number of the request for a message of `n` segments of 32 bytes. -/
def messageNumber (n : Nat) : Nat := 0x40000000 + n * 32 * 0x10000 + 0x6B00

/-- A machine with device files, by what its operations do to its state. -/
structure SpidevHost (η : Type) where
  openFile : String → Act η OsError Unit
  control : SpidevControl → Act η OsError Unit
  /-- Sends bytes and receives as many as the segments ask for; gives the number of bytes moved. -/
  message : List SpidevSegment → Bytes → Act η OsError (Nat × Bytes)
  /-- What the machine says about its largest message. -/
  bufferText : η → Option String
  pageSize : η → Nat
  sleep : Nat → η → η
  note : Notice → η → η

/-- An open bus. -/
structure Spidev where
  bufferSize : Nat
  hertz : Nat
  deriving DecidableEq, Repr

namespace Spidev

inductive Fault where
  | openFailed (path : String) (e : OsError)
  | modeFailed (mode : Nat) (e : OsError)
  | bitsFailed (bits : Nat) (e : OsError)
  | speedFailed (hertz : Nat) (e : OsError)
  | transferFailed (e : OsError)
  | invalidParameter (reason : String)
  | noDevice
  deriving DecidableEq, Repr

def Fault.message : Fault → String
  | .openFailed path e => s!"Failed to open {path}: {e.message}"
  | .modeFailed mode e => s!"Failed to set SPI mode to {mode}: {e.message}"
  | .bitsFailed bits e => s!"Failed to set bits per word to {bits}: {e.message}"
  | .speedFailed hertz e => s!"Failed to set clock speed to {hertz} Hz: {e.message}"
  | .transferFailed e => s!"SPI transfer failed: {e.message}"
  | .invalidParameter reason => s!"Invalid parameter: {reason}"
  | .noDevice => "No device specified. Use dev=/dev/spidevX.Y"

structure Config where
  device : String
  hertz : Nat := 2000000
  mode : Nat := 0
  deriving DecidableEq, Repr

def Config.validate (c : Config) : Except Fault Unit :=
  if c.device.isEmpty then .error .noDevice
  else if 3 < c.mode then .error (.invalidParameter s!"SPI mode {c.mode} (must be 0-3)")
  else if c.hertz == 0 then .error (.invalidParameter "SPI speed must be positive")
  else .ok ()

/-- Where the machine says how large a message may be. -/
def bufferPath : String := "/sys/module/spidev/parameters/bufsiz"

/-- Bits of a word on the bus. -/
def wordBits : Nat := 8

/-- Opcode and address, which are sent before every payload. -/
def headerLength : Nat := 1 + Command.addressBytes

variable {η : Type} (host : SpidevHost η)

def sizeBound : Nat := 0x10000000000000000

/-- The size that a text gives, unless it is zero. -/
def sizeOf? (text : String) : Option Nat :=
  (Text.natural? sizeBound (String.ofList (Text.trim text.toList))).filter (0 < ·)

/-- Bytes of the largest message: what the machine says, or else one page. -/
def askBufferSize : Act η Fault Nat := fun h =>
  let page := host.pageSize h
  let pageNotice : Notice := .debug fun _ => s!"linux_spi: Using page size {page} as buffer size"
  match host.bufferText h with
  | none =>
    let h := host.note (.debug fun _ => s!"linux_spi: Cannot read {bufferPath}, using page size") h
    (.ok page, host.note pageNotice h)
  | some text =>
    match sizeOf? text with
    | some n =>
      (.ok n, host.note (.debug fun _ => s!"linux_spi: Using buffer size {n} from sysfs") h)
    | none =>
      let h := host.note (.warn fun _ => s!"linux_spi: Invalid buffer size in {bufferPath}") h
      (.ok page, host.note pageNotice h)

def tell (n : Notice) : Act η Fault Unit := Act.modify (host.note n)

/-- Makes a setting. What goes wrong is told by the numbers that have names. -/
def adjust (k : SpidevControl) (fault : OsError → Fault) : Act η Fault Unit :=
  (host.control k).mapError fun e => fault e.named

/-- Opens and sets up a bus. -/
def openWith (c : Config) : Act η Fault Spidev := do
  Act.ofExcept c.validate
  tell host (.debug fun _ => s!"linux_spi: Opening device {c.device}")
  (host.openFile c.device).mapError (.openFailed c.device)
  adjust host (.mode c.mode) (.modeFailed c.mode)
  adjust host (.bits wordBits) (.bitsFailed wordBits)
  adjust host (.speed c.hertz) (.speedFailed c.hertz)
  tell host (.info fun _ =>
    s!"linux_spi: Opened {c.device} (mode={c.mode}, speed={c.hertz / 1000} kHz)")
  let size ← askBufferSize host
  tell host (.debug fun _ => s!"linux_spi: Max kernel buffer size: {size} bytes")
  return { bufferSize := size, hertz := c.hertz }

/-- The segments of a command: what is sent, and what is received if anything is. -/
def segments (s : Spidev) (sent want : Nat) : List SpidevSegment :=
  let tx : SpidevSegment := { sends := true, length := sent, hertz := s.hertz }
  if want == 0 then [tx] else [tx, { sends := false, length := want, hertz := s.hertz }]

/-- Runs a command as one message, which must move everything that was asked for. -/
def execute (s : Spidev) (c : Command) : Act η Error Bytes := fun h =>
  let wire := c.wire
  let want := c.buffer.size
  match host.message (s.segments wire.size want) wire h with
  | (.error e, h) =>
    let f : Fault := .transferFailed e
    (.error .transferFailed, host.note (.debug fun _ => s!"linux_spi: {f.message}") h)
  | (.ok (moved, reply), h) =>
    let h := (transferNotices c.totalBytes moved).foldl (fun h n => host.note n h) h
    ((checkTransfer c.totalBytes moved).map fun _ => reply, h)

/-- The bus as a programmer. -/
def programmer (report : Progress → η → η) : Programmer (Spidev × η) where
  maxRead := fun (s, _) => s.bufferSize - headerLength
  maxWrite := fun (s, _) => s.bufferSize - headerLength
  execute c := fun (s, h) =>
    match execute host s c h with
    | (.ok reply, h) => (.ok reply, (s, h))
    | (.error e, h) => (.error (.error e), (s, h))
  delay t := fun (s, h) => (s, host.sleep t h)
  report p := fun (s, h) => (s, report p h)
  note n := fun (s, h) => (s, host.note n h)

end Spidev
end NorFlash
