import NorFlash.Proofs.Parallel
import NorFlash.Usb.Host

namespace NorFlash

/-- What a USB host is asked for and what it answers. -/
inductive UsbEvent where
  | listed
  | opened (position : Nat)
  | claimed (position interface : Nat) (answer : Except String Unit)
  | received (position : Nat) (r : ControlIn) (answer : Except String Bytes)
  | sent (position : Nat) (r : ControlOut) (answer : Except String Unit)
  | released (position : Nat)

variable {η : Type}

def UsbHost.recorded (host : UsbHost η) : UsbHost (η × List UsbEvent) where
  devices := host.devices.recorded fun _ => .listed
  openDevice n := (host.openDevice n).recorded fun _ => .opened n
  claim n i := (host.claim n i).recorded (.claimed n i)
  receive n r := (host.receive n r).recorded (.received n r)
  send n r := (host.send n r).recorded (.sent n r)
  release n := fun (h, log) => (host.release n h, log ++ [.released n])
  sleep t := fun (h, log) => (host.sleep t h, log)
  note m := fun (h, log) => (host.note m h, log)

end NorFlash
