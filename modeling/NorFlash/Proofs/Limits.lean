import NorFlash.Proofs.Recorded
import NorFlash.Protocol.Identification

namespace NorFlash

variable {σ : Type} {x : Command} {most : Nat}

namespace Command

/-- What is sent while a range is read, if so many bytes can be brought back at once. -/
inductive Reads (most : Nat) : Command → Prop where
  | mk (addr : Nat) (buffer : Bytes) (h : buffer.size ≤ most) :
      Reads most (readAt Opcode.readData addr buffer)

/-- What is sent to find out which chip is there. -/
inductive Identifies : Command → Prop where
  | rdid (buffer : Bytes) (h : buffer.size ≤ 4) : Identifies (readRegister Opcode.readId buffer)
  | rems (buffer : Bytes) (h : buffer.size ≤ 2) :
      Identifies (readAt Opcode.readManufacturer 0 buffer)
  | res (buffer : Bytes) (h : buffer.size ≤ 3) : Identifies (readAt Opcode.readSignature 0 buffer)

end Command

namespace Transfer

variable {t : Transfer} {k : Chunk} {cursor page start len : Nat}

theorem len_le_of_mem_chunksFrom (hk : k ∈ t.chunksFrom cursor) : k.len ≤ t.most := by
  obtain ⟨i, _, _, rfl⟩ := exists_cursor hk
  exact Nat.min_le_right _ _

end Transfer

namespace Programmer

variable (p : Programmer σ) (c : Chip) (s : σ)

end Programmer

namespace Law

variable {p : Programmer σ} {P : Command → Prop}

theorem Obeys.identify {name : String} {command : Bytes → Command} {buffer : Bytes} {bytes : Nat}
    (h : ∀ front : Bytes, front.size = bytes → P (command front)) :
    (each P).Obeys (p.recorded.identify name command buffer bytes) fun _ => True := by
  refine .bind (((each P).judgment p).require _) fun front hfront => ?_
  have hsize : front.size = bytes := Bytes.size_of_slice?_add (by rwa [Nat.zero_add])
  refine .bind (.once (.send p _) (h front hsize)) fun answer _ => ?_
  exact .bind (.tell p _) fun _ _ => .pure trivial

/-- Of each command of a step that fails `P` holds as well, so it may be tried. -/
theorem Obeys.answered {x : Act (σ × List Exchange) Stop Bytes} {q : Bytes → Prop}
    (hx : (each P).Obeys x q) (name : String) (bytes : Nat) :
    (each P).Obeys (p.recorded.answered name x bytes) fun _ => True := by
  intro s log
  obtain ⟨sent, hlog, hsent, _⟩ := hx s log
  refine ⟨sent, ?_, hsent, fun _ _ => ⟨trivial, trivial⟩⟩
  unfold Programmer.answered
  cases hrun : x (s, log) with
  | mk r s' =>
    rw [hrun] at hlog
    match r with
    | .ok raw =>
      dsimp only
      split
      · exact hlog
      · exact hlog
    | .error (.error e) => exact hlog
    | .error .stalled => exact hlog
    | .error .crashed => exact hlog

theorem Obeys.readRdid {bytes : Nat} (h : bytes ≤ 4) :
    (each Command.Identifies).Obeys (p.recorded.readRdid bytes) fun _ => True :=
  .identify fun front hfront => .rdid front (by omega)

theorem Obeys.readRems : (each Command.Identifies).Obeys p.recorded.readRems fun _ => True :=
  .identify fun front hfront => .rems front (by omega)

theorem Obeys.readRes {bytes : Nat} (h : bytes ≤ 3) :
    (each Command.Identifies).Obeys (p.recorded.readRes bytes) fun _ => True :=
  .identify fun front hfront => .res front (by omega)

theorem Obeys.probeBy (c : Chip) (m : ProbeMethod) :
    (each Command.Identifies).Obeys (p.recorded.probeBy c m) fun _ => True := by
  have hrdid : ∀ bytes ≤ 4,
      (each Command.Identifies).Obeys (p.recorded.probeRdid c bytes) fun _ => True := by
    intro bytes hbytes
    refine .bind (.readRdid hbytes) fun raw _ => ?_
    exact .bind ((Law.judgment _ p).tellAll _) fun _ _ => .bind (.tell p _) fun _ _ => .pure trivial
  cases m with
  | rdid => exact hrdid 3 (by omega)
  | rdid4 => exact hrdid 4 (by omega)
  | rems => exact .bind .readRems fun raw _ => .bind (.tell p _) fun _ _ => .pure trivial
  | res1 =>
    refine .bind (.answered (.readRdid (by omega)) _ _) fun rdid _ => ?_
    split
    · exact .pure trivial
    · refine .bind (.answered .readRems _ _) fun rems _ => ?_
      split
      · exact .pure trivial
      · refine .bind (.readRes (by omega)) fun raw _ => .bind (.tell p _) fun _ _ => ?_
        exact .pure trivial
  | res2 =>
    refine .bind (.readRes (by omega)) fun raw _ => .bind (.tell p _) fun _ _ => ?_
    exact .pure trivial
  | res3 =>
    refine .bind (.readRes (by omega)) fun raw _ => .bind (.tell p _) fun _ _ => ?_
    exact .pure trivial

end Law

end NorFlash
