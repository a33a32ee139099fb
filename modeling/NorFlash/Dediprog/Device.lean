import NorFlash.Dediprog.Config
import NorFlash.Dediprog.Model
import NorFlash.Programmer
import NorFlash.Spi.Opcode
import NorFlash.Text.Escaped
import NorFlash.Text.Lossy
import NorFlash.Usb.Host

namespace NorFlash

/-- An open programmer. -/
structure Dediprog where
  position : Nat
  model : Dediprog.Model := .unknown
  firmware : Nat := 0
  deviceString : String := ""
  protocol : Dediprog.Protocol := .unknown
  /-- Whether the mode of transfer was set. -/
  modeSet : Bool := false
  /-- Whether the chip was powered down. -/
  released : Bool := false
  deriving DecidableEq, Repr

namespace Dediprog

def vendor : Nat := 0x0483
def product : Nat := 0xDADA

/-- Milliseconds that a request may take. -/
def requestTimeout : Nat := 3000

/-- Most bytes of one transfer in either direction. -/
def maxTransceive : Nat := 16

/-- Looks at the status register after a page program. -/
def writePolls : Nat := 1000

/-- Microseconds between two of them. -/
def writePollInterval : Nat := 10

/-- Microseconds that a change of the supply voltage takes. -/
def settleTime : Nat := 200000

def transceiveCode : Nat := 0x01
def targetCode : Nat := 0x04
def ledCode : Nat := 0x07
def infoCode : Nat := 0x08
def supplyCode : Nat := 0x09
def standaloneCode : Nat := 0x0A
/-- The greeting that firmware before 6.0.0 waits for. -/
def greetingCode : Nat := 0x0B
def modeCode : Nat := 0x15
def clockCode : Nat := 0x61

/-- The answer to the greeting. -/
def greetingAnswer : UInt8 := 0x6F

variable {η : Type} (host : UsbHost η)

/-- A device together with the host that it is on. -/
abbrev On (η α : Type) : Type := Act (Dediprog × η) Fault α

def tell (n : Notice) : On η Unit := Act.modify fun (d, h) => (d, host.note n h)

def pause (microseconds : Nat) : On η Unit := Act.modify fun (d, h) => (d, host.sleep microseconds h)

def update (f : Dediprog → Dediprog) : On η Unit := Act.modify fun (d, h) => (f d, h)

/-- At most `length` bytes that the device has for a request. -/
def receive (recipient : Recipient) (request value index length : Nat) : On η Bytes :=
  fun (d, h) =>
    match host.receive d.position ⟨recipient, request, value, index, length, requestTimeout⟩ h with
    | (.ok reply, h) => (.ok (reply.take length), (d, h))
    | (.error reason, h) => (.error (.transferFailed reason), (d, h))

def send (request value index : Nat) (data : Bytes) : On η Unit := fun (d, h) =>
  match host.send d.position ⟨.endpoint, request, value, index, data, requestTimeout⟩ h with
  | (.ok (), h) => (.ok (), (d, h))
  | (.error reason, h) => (.error (.transferFailed reason), (d, h))

/-- What a device says of itself: up to zeros at the end, and blanks before those. -/
def deviceText (reply : Bytes) : String :=
  let cs := Text.dropTail (fun c => c.toNat == 0) (Text.lossy reply)
  String.ofList (Text.dropTail Text.isSpace cs)

/-- Takes model and firmware from a device string. -/
def identify (text : String) : On η Unit := do
  update fun d => { d with deviceString := text }
  tell host (.debug fun _ => s!"Device string: {text}")
  let model := Model.ofDeviceString text
  update fun d => { d with model }
  if model == .unknown then Act.fail (.unknownDevice text)
  else match Firmware.ofDeviceString? text with
    | none => Act.fail (.firmware s!"Unexpected firmware version string: {text}")
    | some firmware =>
      update fun d => { d with firmware }
      if model.acceptsMajor (Firmware.parts firmware).1 then return ()
      else Act.fail (.firmware s!"Unexpected firmware version for {model.name}: {text}")

def readDeviceString : On η Unit := do
  let reply ← receive host .endpoint infoCode 0 0 33
  if reply.size < 16 then Act.fail (.invalidResponse "Device string too short")
  else identify host (deviceText reply)

def greet : On η Unit := do
  let reply ← receive host .other greetingCode 0 0 1
  if reply.size != 1 || reply.byteAt 0 != greetingAnswer then
    Act.fail (.invalidResponse "Unexpected response to set_voltage")

def setLeds (led : Led) : On η Unit := do
  let (value, index) ← Act.read fun (d, _) => ledRequest d.protocol d.firmware led
  send host ledCode value index ByteArray.empty

def setTarget (t : Target) : On η Unit := do
  tell host (.debug fun _ => s!"Selecting target {t.name}")
  send host targetCode t.wire 0 ByteArray.empty

/-- Old firmware has one clock rate, so nothing is set there. -/
def setSpeed (hertz : Nat) : On η Unit := do
  let d ← Act.read fun (d, _) => d
  if d.model.isBeforePg2 && d.firmware < Firmware.encode 5 0 0 then
    tell host (.warn fun _ => "Skipping SPI speed setting for old firmware")
  else match speedSelector? hertz with
    | none => Act.fail (.invalidParameter s!"SPI speed {hertz} Hz")
    | some selector =>
      tell host (.debug fun _ => s!"Setting SPI speed to {hertz / 1000} kHz")
      send host clockCode selector 0 ByteArray.empty

/-- Sets the supply of the chip. It needs time before it is switched off and after it is switched
on. -/
def setVoltage (millivolts : Nat) : On η Unit := do
  match voltageSelector? millivolts with
  | none => Act.fail (.invalidParameter s!"voltage: {millivolts}")
  | some selector =>
    tell host (.debug fun _ =>
      s!"Setting SPI voltage to {millivolts / 1000}.{Text.decimal 3 (millivolts % 1000)}V")
    if selector == 0 then pause host settleTime
    send host supplyCode selector 0 ByteArray.empty
    if selector != 0 then pause host settleTime

def leaveStandalone : On η Unit := do
  tell host (.debug fun _ => "Leaving standalone mode")
  send host standaloneCode 1 0 ByteArray.empty

/-- Transfers run on single lines; the newer models have to be told so once. -/
def setSingleMode : On η Unit := do
  let d ← Act.read fun (d, _) => d
  if d.model.isSf600Class && !d.modeSet then
    tell host (.trace fun _ => "Setting I/O mode to Single")
    send host modeCode 0 0 ByteArray.empty
    update fun d => { d with modeSet := true }

/-- Sends bytes over the bus and asks for `want` bytes back. -/
def transceive (data : Bytes) (want : Nat) : On η Bytes := do
  if maxTransceive < data.size || maxTransceive < want then
    Act.fail (.invalidParameter s!"transceive of {data.size} out / {want} in bytes")
  else
    setSingleMode host
    let (value, index) ← Act.read fun (d, _) => transceiveRequest d.protocol (want != 0)
    send host transceiveCode value index data
    if want == 0 then return ByteArray.empty
    else receive host .endpoint transceiveCode 0 0 want

def faultNotice (f : Fault) : Notice := .debug fun _ => s!"dediprog: {f.message}"

/-- A transfer that must bring back everything that was asked for. -/
def exchange (data : Bytes) (want : Nat) : Act (Dediprog × η) Error Bytes := fun s =>
  match transceive host data want s with
  | (.error f, (d, h)) => (.error .transferFailed, (d, host.note (faultNotice f) h))
  | (.ok reply, (d, h)) =>
    let requested := data.size + want
    let moved := data.size + reply.size
    let h := (transferNotices requested moved).foldl (fun h n => host.note n h) h
    ((checkTransfer requested moved).map fun _ => reply, (d, h))

def readStatus : Act (Dediprog × η) Error UInt8 := do
  let reply ← exchange host (Bytes.ofList [Opcode.readStatus]) 1
  return reply.byteAt 0

def unfinishedNotice (polls : Nat) : Notice :=
  .error fun _ => s!"dediprog: write still in progress after {polls} polls"

/-- Looks at the status up to `n` times, waiting after each look that finds the chip busy. -/
def pollWrite {σ : Type} (status : Act σ Error UInt8) (wait : σ → σ) (giveUp : σ → σ) :
    Nat → Act σ Error Unit
  | 0 => fun s => (.error .timeout, giveUp s)
  | n + 1 => fun s =>
    match status s with
    | (.error e, s) => (.error e, s)
    | (.ok b, s) =>
      if b &&& Opcode.busyBit == 0 then (.ok (), s) else pollWrite status wait giveUp n (wait s)

/-- Waits for the end of a page program; tells when that does not come. -/
def pollWriteDone {σ : Type} (status : Act σ Error UInt8) (sleep : Nat → σ → σ)
    (note : Notice → σ → σ) (polls : Nat) : Act σ Error Unit :=
  pollWrite status (sleep writePollInterval) (note (unfinishedNotice polls)) polls

/-- Runs a command; a page program is waited for. -/
def execute (c : Command) : Act (Dediprog × η) Error Bytes := do
  let reply ← exchange host c.wire c.buffer.size
  if c.opcode == Opcode.pageProgram then
    pollWriteDone (readStatus host) (fun t (d, h) => (d, host.sleep t h))
      (fun n (d, h) => (d, host.note n h)) writePolls
  return reply

/-- The device as a programmer. Opcode, address and data share one transfer. -/
def programmer (report : Progress → η → η) : Programmer (Dediprog × η) where
  maxRead _ := maxTransceive
  maxWrite _ := maxTransceive - 5
  execute c := (execute host c).mapError .error
  delay t := fun (d, h) => (d, host.sleep t h)
  report p := fun (d, h) => (d, report p h)
  note n := fun (d, h) => (d, host.note n h)

/-- Powers the chip down, once. -/
def powerDown : On η Unit := fun (d, h) =>
  if d.released then (.ok (), (d, h))
  else
    let (mode, s) := setSingleMode host ({ d with released := true }, h)
    let (supply, s) := setVoltage host 0 s
    (mode.bind fun _ => supply, s)

def shutdown : Act (Dediprog × η) Error Unit := fun s =>
  match powerDown host s with
  | (.ok (), s) => (.ok (), s)
  | (.error f, (d, h)) =>
    (.error .programmer, (d, host.note (.error fun _ => s!"dediprog: {f.message}") h))

/-- The end of a device: powered down, and its interface given back. -/
def drop (d : Dediprog) (h : η) : η :=
  let (r, (d, h)) := powerDown host (d, h)
  let h := match r with
    | .ok () => h
    | .error f => host.note (.warn fun _ => s!"dediprog: power down failed: {f.message}") h
  host.release d.position h

def openedNotice (d : Dediprog) : Notice :=
  .info fun _ =>
    let (major, minor, patch) := Firmware.parts d.firmware
    s!"Dediprog {d.model.name}: firmware {major}.{minor}.{patch}, protocol {d.protocol.name}"

/-- Brings a claimed device into use. -/
def setUp (c : Config) : On η Unit := do
  match ← (readDeviceString host).attempt with
  | .ok () => pure ()
  | .error _ =>
    greet host
    readDeviceString host
  update fun d => { d with protocol := Protocol.of d.model d.firmware }
  let d ← Act.read fun (d, _) => d
  if d.protocol == .unknown then Act.fail (.firmware "Unable to determine protocol version")
  else
    tell host (openedNotice d)
    setLeds host .all
    setTarget host c.target
    setSpeed host c.hertz
    setVoltage host c.millivolts
    if d.model == .sf600 then leaveStandalone host
    setLeds host .none

/-- Sets a claimed device up, or drops it. -/
def start (c : Config) (position : Nat) : Act η Fault Dediprog := fun h =>
  match setUp host c ({ position }, h) with
  | (.ok (), (d, h)) => (.ok d, h)
  | (.error f, (d, h)) => (.error f, drop host d h)

def openingNotice (u : UsbDevice) : Notice :=
  .info fun _ => s!"Opening Dediprog at bus {u.bus} address {u.address}"

def openDevice (c : Config) (u : UsbDevice) : Act η Fault Dediprog := do
  Act.modify (host.note (openingNotice u))
  (host.openDevice u.position).mapError .openFailed
  (host.claim u.position 0).mapError .claimFailed
  start host c u.position

/-- Opens the programmer that the set-up names. -/
def openWith (c : Config) : Act η Fault Dediprog := do
  Act.ofExcept c.validate
  let devices ← host.devices.mapError .openFailed
  match (devices.filter fun u => u.vendor == vendor && u.product == product)[c.index]? with
  | none => Act.fail .deviceNotFound
  | some u => openDevice host c u

/-- The device as it is shown to somebody who looks for trouble. -/
def shown (d : Dediprog) : String :=
  "Dediprog \x7b device: " ++ Text.escaped d.deviceString ++ ", protocol: " ++ d.protocol.name ++
    " \x7d"

end Dediprog
end NorFlash
