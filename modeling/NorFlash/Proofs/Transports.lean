import NorFlash.Proofs.Limits
import NorFlash.Proofs.PowerDown
import NorFlash.Spidev.Device

namespace NorFlash

variable {η : Type} {x : Command}

namespace Dediprog

variable {host : UsbHost η} {d : Dediprog} {h : η} {log : List UsbEvent} {reply data : Bytes}
  {want : Nat} {s' : Dediprog × (η × List UsbEvent)}

theorem send_eq_ok {request value index : Nat}
    (hrun : send host.recorded request value index data (d, (h, log)) = (.ok (), s')) :
    ∃ h', s' = (d, (h', log ++ [.sent d.position
      ⟨.endpoint, request, value, index, data, requestTimeout⟩ (.ok ())])) := by
  cases hx : host.send d.position ⟨.endpoint, request, value, index, data, requestTimeout⟩ h with
  | mk answer h' =>
    simp only [send, UsbHost.recorded, Act.recorded, hx] at hrun
    cases answer with
    | ok _ =>
      cases hrun
      exact ⟨h', rfl⟩
    | error reason => cases hrun

/-- One transfer has room for the command in both directions. -/
def Carries (x : Command) : Prop := x.wire.size ≤ maxTransceive ∧ x.buffer.size ≤ maxTransceive

end Dediprog

namespace Spidev

end Spidev

namespace Spidev

variable {spi : SpidevHost η} {b : Spidev} {h : η} {reply : Bytes}

end Spidev

variable {usb : UsbHost η} {spi : SpidevHost η} {report : Progress → η → η} {c : Chip}

namespace Dediprog

end Dediprog

end NorFlash
