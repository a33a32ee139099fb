import NorFlash.Act
import NorFlash.Bytes
import NorFlash.Log.Notice

namespace NorFlash

structure UsbDevice where
  /-- The position among all devices. -/
  position : Nat
  vendor : Nat
  product : Nat
  bus : String
  address : Nat
  deriving DecidableEq, Repr

/-- Whom a vendor request is for. -/
inductive Recipient where
  | endpoint | other
  deriving DecidableEq, Repr

structure ControlIn where
  recipient : Recipient
  request : Nat
  value : Nat
  index : Nat
  length : Nat
  /-- Milliseconds. -/
  timeout : Nat
  deriving DecidableEq, Repr

structure ControlOut where
  recipient : Recipient
  request : Nat
  value : Nat
  index : Nat
  data : Bytes
  /-- Milliseconds. -/
  timeout : Nat

/-- A host by what its operations do to its state; devices are named by their positions. -/
structure UsbHost (η : Type) where
  devices : Act η String (List UsbDevice)
  openDevice : Nat → Act η String Unit
  claim : (device interface : Nat) → Act η String Unit
  receive : Nat → ControlIn → Act η String Bytes
  send : Nat → ControlOut → Act η String Unit
  /-- Gives the claimed interface back. -/
  release : Nat → η → η
  /-- Waits so many microseconds. -/
  sleep : Nat → η → η
  note : Notice → η → η

end NorFlash
