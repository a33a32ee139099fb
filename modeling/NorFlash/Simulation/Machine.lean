import NorFlash.Chip.Catalog
import NorFlash.Files.Tree
import NorFlash.Numeric.Total
import NorFlash.Session.Registry
import NorFlash.Simulation.Bus
import NorFlash.Simulation.Rule

namespace NorFlash

/-- What happened on the machine's buses. -/
inductive BusEvent where
  | sleep (microseconds : Nat)
  | list
  | openDevice (device : Nat)
  | claim (device interface : Nat)
  | release (device : Nat)
  | sent (r : ControlOut)
  | received (r : ControlIn) (answer : Except String Bytes)
  | control (c : SpidevControl)
  | message (segments : List SpidevSegment) (data : Bytes)

/-- A request that a rule may hit. -/
structure UsbRequest where
  incoming : Bool
  request : Nat
  deriving DecidableEq, Repr

inductive UsbEffect where
  | fail (reason : String)
  | reply (bytes : Bytes)

structure SimulatedDevice where
  device : UsbDevice
  /-- What it says of itself. -/
  info : Bytes
  openError : Option String := none
  claimError : Option String := none

structure SimulatedUsb where
  devices : List SimulatedDevice := []
  listError : Option String := none
  rules : List (Rule UsbRequest UsbEffect) := []
  /-- Bytes of a transaction that waits for the request that asks for its answer. -/
  pending : Option Bytes := none

/-- What a rule does with a message. -/
inductive SpidevEffect where
  | fail (e : OsError)
  /-- So many bytes fewer are reported as moved. -/
  | short (bytes : Nat)

structure SimulatedSpidev where
  /-- Without a driver every file refuses the bus's requests. -/
  present : Bool := false
  bufferText : Option String := none
  modeError : Option OsError := none
  bitsError : Option OsError := none
  speedError : Option OsError := none
  rules : List (Rule UInt8 SpidevEffect) := []

/-- Files, a USB host and a bus of its own, both with the same emulated chip behind them. -/
structure Machine where
  chip : Emulator
  files : Files := {}
  usb : SimulatedUsb := {}
  spidev : SimulatedSpidev := {}
  events : Array BusEvent := #[]
  progress : Array Progress := #[]
  log : Log := {}

namespace Machine

/-- A machine with files and no hardware. -/
def bare (files : Files) (log : Log) : Machine :=
  { chip := Emulator.ofChip { Chip.w25q64w with size := 0 }, files, log }

def note (n : Notice) (m : Machine) : Machine :=
  match m with
  | ⟨chip, files, usb, spidev, events, progress, log⟩ =>
    ⟨chip, files, usb, spidev, events, progress, log.add n⟩

def event (e : BusEvent) (m : Machine) : Machine :=
  match m with
  | ⟨chip, files, usb, spidev, events, progress, log⟩ =>
    ⟨chip, files, usb, spidev, events.push e, progress, log⟩

def report (p : Progress) (m : Machine) : Machine :=
  match m with
  | ⟨chip, files, usb, spidev, events, progress, log⟩ =>
    ⟨chip, files, usb, spidev, events, progress.push p, log⟩

/-- Waiting for nothing is no event. -/
def sleep (t : Nat) (m : Machine) : Machine := if t == 0 then m else m.event (.sleep t)

/-- One transaction with the chip. -/
def transact (sent : Bytes) (want : Nat) (m : Machine) : Bytes × Machine :=
  let c := Emulator.commandOf sent want
  match m with
  | ⟨chip, files, usb, spidev, events, progress, log⟩ =>
    match chip.transact c with
    | (reply, chip) =>
      (reply, ⟨chip, files, usb, spidev, events, progress, log.add (Emulator.notice c)⟩)

def fileStore : FileStore Machine where
  read path m := (m.files.read path, m)
  write path content m :=
    match m.files.write path content with
    | .ok files => (.ok (), { m with files })
    | .error e => (.error e, m)
  note := note

def failing (error : Option String) : Except String Unit :=
  match error with
  | some reason => .error reason
  | none => .ok ()

def device? (m : Machine) (position : Nat) : Option SimulatedDevice := m.usb.devices[position]?

/-- Tries the rules for a request. -/
def tryUsb (r : UsbRequest) (m : Machine) : Option UsbEffect × Machine :=
  match Rule.fire m.usb.rules r with
  | (effect, rules) => (effect, { m with usb := { m.usb with rules } })

/-- A request with data: a transaction at once, or its bytes until the answer is asked for. -/
def carryOut (r : ControlOut) (m : Machine) : Machine :=
  if r.request != Dediprog.transceiveCode then m
  else if r.value == 0 && r.index == 0 then (m.transact r.data 0).2
  else { m with usb := { m.usb with pending := some r.data } }

def usbSend (r : ControlOut) : Act Machine String Unit := fun m =>
  match tryUsb ⟨false, r.request⟩ (m.event (.sent r)) with
  | (some (.fail reason), m) => (.error reason, m)
  | (some (.reply _), m) => (.ok (), m)
  | (none, m) => (.ok (), carryOut r m)

/-- What the hardware has for a request. -/
def bringBack (position : Nat) (r : ControlIn) (m : Machine) : Bytes × Machine :=
  if r.request == Dediprog.transceiveCode then
    match m.usb.pending with
    | none => (ByteArray.empty, m)
    | some sent => ({ m with usb := { m.usb with pending := none } } : Machine).transact sent r.length
  else if r.request == Dediprog.infoCode then (((m.device? position).map (·.info)).getD ByteArray.empty, m)
  else if r.request == Dediprog.greetingCode then (Bytes.ofList [Dediprog.greetingAnswer], m)
  else (ByteArray.empty, m)

def usbAnswer (position : Nat) (r : ControlIn) : Act Machine String Bytes := fun m =>
  match tryUsb ⟨true, r.request⟩ m with
  | (some (.fail reason), m) => (.error reason, m)
  | (some (.reply bytes), m) => (.ok (bytes.take r.length), m)
  | (none, m) =>
    match bringBack position r m with
    | (bytes, m) => (.ok (bytes.take r.length), m)

def usbHost : UsbHost Machine where
  devices m :=
    let r := (failing m.usb.listError).map fun _ => m.usb.devices.map SimulatedDevice.device
    (r, m.event .list)
  openDevice d m := (failing ((m.device? d).bind (·.openError)), m.event (.openDevice d))
  claim d i m := (failing ((m.device? d).bind (·.claimError)), m.event (.claim d i))
  receive d r m :=
    match usbAnswer d r m with
    | (answer, m) => (answer, m.event (.received r answer))
  send _ r := usbSend r
  release d := event (.release d)
  sleep := sleep
  note := note

/-- Devices can be opened where there are files. -/
def openFile (path : String) : Act Machine OsError Unit := fun m =>
  (m.files.read path |>.map fun _ => (), m)

/-- What a file says that is no device. -/
def noDevice : OsError := .number 25

def controlError (s : SimulatedSpidev) : SpidevControl → Option OsError
  | .mode _ => s.modeError
  | .bits _ => s.bitsError
  | .speed _ => s.speedError

def control (c : SpidevControl) : Act Machine OsError Unit := fun m =>
  if !m.spidev.present then (.error noDevice, m)
  else
    match controlError m.spidev c with
    | some e => (.error e, m.event (.control c))
    | none => (.ok (), m.event (.control c))

/-- Bytes that the segments ask for, and bytes of all segments. -/
def wanted (segments : List SpidevSegment) : Nat :=
  total ((segments.filter fun s => !s.sends).map SpidevSegment.length)

def lengths (segments : List SpidevSegment) : Nat := total (segments.map SpidevSegment.length)

def message (segments : List SpidevSegment) (data : Bytes) : Act Machine OsError (Nat × Bytes) :=
  fun m =>
    let m := m.event (.message segments data)
    match Rule.fire m.spidev.rules (data.byteAt 0) with
    | (effect, rules) =>
      let m := { m with spidev := { m.spidev with rules } }
      match effect with
      | some (.fail e) => (.error e, m)
      | some (.short n) =>
        match m.transact data (wanted segments) with
        | (reply, m) => (.ok (lengths segments - n, reply), m)
      | none =>
        match m.transact data (wanted segments) with
        | (reply, m) => (.ok (lengths segments, reply), m)

def spidevHost : SpidevHost Machine where
  openFile := openFile
  control := control
  message := message
  bufferText m := m.spidev.bufferText
  pageSize _ := 4096
  sleep := sleep
  note := note

def equipment : Equipment Machine where
  files := fileStore
  usb := usbHost
  spidev := spidevHost
  report := report

/-- The workshop of a machine that knows these chips. -/
def workshop (catalog : List Chip) : Workshop Machine Handle := equipment.workshop catalog

end Machine
end NorFlash
