import NorFlash.Proofs.Identity
import NorFlash.Proofs.Polling
import NorFlash.Proofs.RawCommands

namespace NorFlash

variable {σ α : Type} {p : Programmer σ} {t u lead : List Exchange}

theorem not_armed (h : ∀ x ∈ t, ¬x.Enables) : ¬Armed t := by
  rintro ⟨before, w, after, rfl, hw, _⟩
  exact h w (by simp) hw

theorem not_armed_append (ht : ¬Armed t) (hu : ¬Armed u) : ¬Armed (t ++ u) := by
  rintro ⟨before, w, after, h, hw, hafter⟩
  rcases split_append h with ⟨rest, rfl, rfl⟩ | ⟨rest, _, rfl⟩
  · exact ht ⟨before, w, rest, rfl, hw, fun x hx => hafter x (List.mem_append_left u hx)⟩
  · exact hu ⟨rest, w, after, rfl, hw, hafter⟩

theorem Exchange.Looks.not_enables {x : Exchange} (h : x.Looks) : ¬x.Enables := by
  intro hx
  exact absurd (h.symm.trans hx.1) (by decide)

/-- Whoever sets the latch clears it again. -/
def Law.resting : Law where
  holds _ := True
  complete sent := ¬Armed sent
  holds_nil := trivial
  complete_nil := not_armed_nil
  holds_append _ _ _ := trivial
  complete_append := not_armed_append

/-- A program or an erase that is waited for clears the latch, whoever set it. -/
theorem Sends.clears {x : Act (σ × List Exchange) Stop α} {c : Command} {g : Exchange → α}
    (interval : Nat) (hx : Sends x (Once c g)) (hc : c.Changes) (lead : List Exchange) :
    Sends (x >>= fun _ => p.recorded.waitReady interval) fun sent r =>
      True ∧ ∀ a, r = .ok a → ¬Armed (lead ++ sent) ∧ True := by
  refine hx.once_bind ?_ fun _ _ _ => ⟨trivial, nofun⟩
  rintro y rfl hdone
  refine (pollReady p interval _).mono ?_
  rintro polls r ⟨hlooks, _, _⟩
  refine ⟨trivial, fun a _ => ⟨fun harmed => ?_, trivial⟩⟩
  obtain ⟨w, hw, henables⟩ := harmed.enables_after ⟨hdone, .inl hc⟩
  exact (hlooks w hw).not_enables henables

namespace Law

variable {addr len chipSize : Nat} {data buffer : Bytes} {f : EraseFunction}

theorem resting_readInto : resting.Obeys (p.recorded.readInto addr buffer) fun _ => True := by
  refine (Sends.readInto p).mono ?_
  rintro sent r ⟨y, rfl, hc, _⟩
  refine ⟨trivial, fun a _ => ⟨not_armed ?_, trivial⟩⟩
  simp [Exchange.Enables, hc, Command.readAt, Opcode.readData, Opcode.writeEnable]

theorem resting_programPage : resting.Obeys (p.recorded.programPage addr data) fun _ => True := by
  refine Sends.latch_bind p ?_ fun _ _ _ _ => ⟨trivial, nofun⟩
  intro lead latch _ _
  split
  · exact Sends.clears _ (Sends.send p _) (.inl rfl) lead
  · have hfails : resting.Obeys (do
        p.recorded.tell (Programmer.latchNotice addr)
        Act.fail (.error .writeProtected)) fun _ : Unit => False :=
      .bind (.tell p _) fun _ _ => .fail
    exact Sends.mono hfails fun _ _ h => ⟨trivial, fun a ha => (h.2 a ha).2.elim⟩

theorem resting_eraseBlock :
    resting.Obeys (p.recorded.eraseBlock f addr len chipSize) fun _ => True := by
  unfold Programmer.eraseBlock
  split
  · exact .bind (.tell p _) fun _ _ => .fail
  · refine (Sends.enableErase p).bind ?_ fun _ _ _ => ⟨trivial, nofun⟩
    intro lead _ _
    exact Sends.clears _ (Sends.sendErase p) (.inr ⟨f, Programmer.eraseCommand_opcode f addr⟩) lead

end Law

/-- Works on every programmer alike, and sends nothing that leaves the latch set if it ends well. -/
structure Restful (X : ∀ {σ : Type}, Programmer σ → Act σ Stop α) : Prop where
  mirrors : ∀ {σ τ : Type} {R : σ → τ → Prop} {p : Programmer σ} {q : Programmer τ},
    p.Parallel R q → (X p).Mirrors R (X q)
  rests : ∀ {σ : Type} (p : Programmer σ), Law.resting.Obeys (X p.recorded) fun _ => True

theorem restful_readChip (c : Chip) : Restful fun p => p.readChip c where
  mirrors h := h.readChip c
  rests p := (Law.resting.judgment p).readChip c fun _ _ => Law.resting_readInto

theorem restful_write (c : Chip) (x : Strategy) (data : Bytes) :
    Restful fun p => p.write c x 0 data where
  mirrors h := h.write c x 0 data
  rests p := (Law.resting.judgment p).write c (fun _ _ => Law.resting_readInto)
    (fun _ _ => Law.resting_programPage) (fun _ _ _ _ => Law.resting_eraseBlock) x

theorem restful_verify (c : Chip) (data : Bytes) : Restful fun p => p.verify c 0 data where
  mirrors h := h.verify c 0 data
  rests p := (Law.resting.judgment p).verify c (fun _ _ => Law.resting_readInto) 0 data

namespace Emulator

variable {chip : Chip} {e d : Emulator} {content : Bytes}

def Alike (e d : Emulator) : Prop := d = { e with journal := d.journal }

theorem Alike.refl (e : Emulator) : e.Alike e := rfl

theorem common?_alike {c : Command} {x : Act Emulator Stop Bytes} (h : common? c = some x)
    (e : Emulator) (journal : Array Entry) :
    ∃ journal', x { e with journal } = ((x e).1, { (x e).2 with journal := journal' }) := by
  unfold common? at h
  split_ifs at h <;> cases h
  · exact ⟨_, rfl⟩
  · exact ⟨_, rfl⟩
  · exact ⟨_, rfl⟩
  · exact ⟨_, rfl⟩
  · unfold read
    dsimp only
    split <;> exact ⟨_, rfl⟩
  · unfold program
    dsimp only
    split
    · exact ⟨_, rfl⟩
    · split
      · exact ⟨_, rfl⟩
      · split <;> exact ⟨_, rfl⟩

theorem erase_alike (f : EraseFunction) (addr : Nat) (e : Emulator) (journal : Array Entry) :
    ∃ journal', erase f addr { e with journal } =
      ((erase f addr e).1, { (erase f addr e).2 with journal := journal' }) := by
  unfold erase
  dsimp only
  split
  · exact ⟨_, rfl⟩
  · split
    · exact ⟨_, rfl⟩
    · unfold eraseCells
      dsimp only
      split
      · exact ⟨_, rfl⟩
      · split <;> exact ⟨_, rfl⟩

/-- The journal is written and never looked at. -/
theorem execute_alike (c : Command) : (execute c).Mirrors Alike (execute c) := by
  intro e d h
  have hexecute : ∃ journal', execute c { e with journal := d.journal } =
      ((execute c e).1, { (execute c e).2 with journal := journal' }) := by
    unfold execute
    cases hx : common? c with
    | some x => exact common?_alike hx e d.journal
    | none =>
      cases EraseFunction.ofOpcode? c.opcode with
      | some f => exact erase_alike f _ e d.journal
      | none => exact ⟨_, rfl⟩
  obtain ⟨journal', hexecute⟩ := hexecute
  rw [h, hexecute]
  exact ⟨rfl, rfl⟩

theorem programmer_alike : programmer.Parallel Alike programmer where
  execute := execute_alike
  delay _ _ _ h := h
  report _ _ _ h := h
  note _ _ _ h := h
  maxRead _ _ h := by rw [h]; rfl
  maxWrite _ _ h := by rw [h]; rfl
  patience := rfl

/-- An emulated chip that answers at once, as it was opened but for its cells, latch and journal. -/
structure Steady (chip : Chip) (e : Emulator) : Prop where
  chip_eq : e.chip = chip
  busyPolls : e.busyPolls = 0
  maxRead : e.maxRead = 4096
  maxWrite : e.maxWrite = chip.pageSize
  busy : e.busy = 0
  size : e.cells.size = chip.size

/-- No command changes the limits of a transaction. -/
structure Limited (e e' : Emulator) : Prop where
  maxRead : e'.maxRead = e.maxRead
  maxWrite : e'.maxWrite = e.maxWrite

theorem program_limited (addr : Nat) (data : Bytes) (e : Emulator) :
    e.Limited (program addr data e).2 := by
  unfold program
  dsimp only
  split
  · exact ⟨rfl, rfl⟩
  · split
    · exact ⟨rfl, rfl⟩
    · split <;> exact ⟨rfl, rfl⟩

theorem erase_limited (f : EraseFunction) (addr : Nat) (e : Emulator) :
    e.Limited (erase f addr e).2 := by
  unfold erase
  split
  · exact ⟨rfl, rfl⟩
  · split
    · exact ⟨rfl, rfl⟩
    · unfold eraseCells
      dsimp only
      split
      · exact ⟨rfl, rfl⟩
      · split <;> exact ⟨rfl, rfl⟩

theorem execute_limited (c : Command) (e : Emulator) : e.Limited (execute c e).2 := by
  unfold execute
  cases hx : common? c with
  | some x =>
    unfold common? at hx
    split_ifs at hx <;> cases hx
    · exact ⟨rfl, rfl⟩
    · exact ⟨rfl, rfl⟩
    · exact ⟨rfl, rfl⟩
    · exact ⟨rfl, rfl⟩
    · unfold read
      dsimp only
      split <;> exact ⟨rfl, rfl⟩
    · exact program_limited _ _ e
  | none =>
    cases EraseFunction.ofOpcode? c.opcode with
    | some f => exact erase_limited f _ e
    | none => exact ⟨rfl, rfl⟩

theorem Steady.execute (h : e.Steady chip) (c : Command) : (execute c e).2.Steady chip := by
  have hx := executed e c
  have hcounted := execute_counted c e
  have hlimited := execute_limited c e
  have hbusy := hcounted.busy
  rw [h.busy, h.busyPolls] at hbusy
  exact ⟨hx.chip_eq.trans h.chip_eq, hcounted.busyPolls.trans h.busyPolls,
    hlimited.maxRead.trans h.maxRead, hlimited.maxWrite.trans h.maxWrite,
    Nat.le_zero.mp hbusy, hx.size_eq.trans h.size⟩

/-- As a new one with these cells. -/
structure AtRest (chip : Chip) (e : Emulator) : Prop extends Steady chip e where
  latch : e.latch = false

theorem AtRest.alike (h : e.AtRest chip) : e.Alike { ofChip chip with cells := e.cells } := by
  obtain ⟨⟨hchip, hpolls, hread, hwrite, hbusy, _⟩, hlatch⟩ := h
  obtain ⟨chip', busyPolls, maxRead, maxWrite, cells, latch, busy, journal⟩ := e
  dsimp only at hchip hpolls hread hwrite hbusy hlatch
  subst hchip hpolls hread hwrite hbusy hlatch
  rfl

theorem atRest_ofChip (chip : Chip) : (ofChip chip).AtRest chip where
  chip_eq := rfl
  busyPolls := rfl
  maxRead := rfl
  maxWrite := rfl
  busy := rfl
  size := Bytes.size_filled chip.size erased
  latch := rfl

theorem atRest_load (chip : Chip) (content : Bytes) : ((ofChip chip).load content).AtRest chip where
  chip_eq := rfl
  busyPolls := rfl
  maxRead := rfl
  maxWrite := rfl
  busy := rfl
  size := by simp [ofChip, load, Bytes.size_overlayFront]
  latch := rfl

/-- Content that fills the chip takes the place of all cells. -/
theorem load_eq (h : content.size = chip.size) :
    (ofChip chip).load content = { ofChip chip with cells := content } := by
  have hsize : content.size = (Bytes.filled chip.size erased).size := by rw [h, Bytes.size_filled]
  simp only [ofChip, load, Bytes.overlayFront_of_size_eq hsize]

/-- The chip beside the record of what it was sent since it was at rest. -/
def Attended (chip : Chip) (s : Emulator × List Exchange) (e : Emulator) : Prop :=
  s.1 = e ∧ e.Steady chip ∧ (e.latch = true ↔ Armed s.2)

theorem programmer_attended (chip : Chip) :
    programmer.recorded.Parallel (Attended chip) programmer where
  execute c := by
    rintro ⟨_, log⟩ e ⟨rfl, hsteady, hlatch⟩
    exact ⟨rfl, rfl, hsteady.execute c, (executed _ c).latch_armed hlatch⟩
  delay _ _ _ h := h
  report _ _ _ h := h
  note _ _ _ h := h
  maxRead := by
    rintro _ _ ⟨rfl, _⟩
    rfl
  maxWrite := by
    rintro _ _ ⟨rfl, _⟩
    rfl
  patience := rfl

/-- What ends well leaves a chip at rest that was at rest. -/
theorem AtRest.of_restful {X : ∀ {σ : Type}, Programmer σ → Act σ Stop α} (hX : Restful X)
    {a : α} {e' : Emulator} (h : e.AtRest chip)
    (hrun : X programmer e = (.ok a, e')) : e'.AtRest chip := by
  have hstart : Attended chip (e, []) e := ⟨rfl, h.toSteady, by simp [h.latch, not_armed_nil]⟩
  obtain ⟨r, ⟨d, log⟩, e'', hx, hy, rfl, hsteady, hlatch⟩ :=
    (hX.mirrors (programmer_attended chip)).ends hstart
  rw [hrun] at hy
  cases hy
  obtain ⟨sent, hlog, _, hok⟩ := hX.rests programmer e []
  rw [hx] at hlog hok
  obtain rfl : log = sent := hlog
  refine ⟨hsteady, ?_⟩
  have hclear := (hok a rfl).1
  simpa using mt hlatch.mp hclear

/-- Whether a chip answers its probe on an emulated one is told by what the emulated one is, and the
probe leaves it alone. -/
theorem probeBy_of_chip (b : Chip) (h : d.chip = e.chip) :
    ∃ found, programmer.probeBy b b.probe e = (.ok found, e) ∧
      programmer.probeBy b b.probe d = (.ok found, d) := by
  have hrdid {n : Nat} (hn : n ≤ 4) := readRdid_eq (n := n) d hn
  rw [h] at hrdid
  have hrems := readRems_eq d
  rw [h] at hrems
  cases b.probe with
  | rdid =>
    have hd := probeRdid_eq (b := b) d (hrdid (n := 3) (by omega)) rfl
    exact ⟨_, probeRdid_eq e (readRdid_eq e (by omega)) rfl, hd⟩
  | rdid4 =>
    have hd := probeRdid_eq (b := b) d (hrdid (n := 4) (by omega)) rfl
    exact ⟨_, probeRdid_eq e (readRdid_eq e (by omega)) rfl, hd⟩
  | rems =>
    have hd := probeRems_eq (b := b) d
    rw [h] at hd
    exact ⟨_, probeRems_eq e, hd⟩
  | res1 =>
    have hd := probeRes1_of_answers (b := b) (hrdid (n := 3) (by omega)) hrems
    rw [h] at hd
    exact ⟨_, probeRes1_of_answers (readRdid_eq e (by omega)) (readRems_eq e), hd⟩
  | res2 =>
    have hd := probeRes2_eq (b := b) d
    rw [h] at hd
    exact ⟨_, probeRes2_eq e, hd⟩
  | res3 =>
    have hd := probeRes3_eq (b := b) d
    rw [h] at hd
    exact ⟨_, probeRes3_eq e, hd⟩

theorem present_of_chip (b : Chip) (h : d.chip = e.chip) :
    ∃ found, programmer.present b e = (.ok found, e) ∧ programmer.present b d = (.ok found, d) := by
  obtain ⟨found, he, hd⟩ := probeBy_of_chip b h
  refine ⟨found, ?_, ?_⟩
  · rw [Programmer.present, Act.mapError, probeChip_of_probeBy he]
  · rw [Programmer.present, Act.mapError, probeChip_of_probeBy hd]

/-- A search finds the same on emulated chips of one kind and leaves them alone. -/
theorem selectChip_of_chip (chips : List Chip) (name : String) (h : d.chip = e.chip) :
    ∃ r, programmer.selectChip chips name e = (r, e) ∧
      programmer.selectChip chips name d = (r, d) := by
  choose found he hd using fun b => present_of_chip b h
  have hfirst {s : Emulator} (hs : ∀ b, programmer.present b s = (.ok (found b), s)) :
      Act.first (fun c => do return if ← programmer.present c then some () else none) chips s =
        (.ok ((chips.find? found).map fun b => (b, ())), s) :=
    Act.first_eq_find? fun b _ => by rw [Act.bind_ok (hs b)]; rfl
  unfold Programmer.selectChip
  split
  · unfold Programmer.detectChip
    rw [Act.bind_ok (hfirst he), Act.bind_ok (hfirst hd)]
    cases chips.find? found with
    | none => exact ⟨_, rfl, rfl⟩
    | some b => exact ⟨_, rfl, rfl⟩
  · unfold Programmer.namedChip
    cases findChip? chips name with
    | none => exact ⟨_, rfl, rfl⟩
    | some b =>
      dsimp only
      rw [Act.bind_ok (he b), Act.bind_ok (hd b)]
      cases found b with
      | true => exact ⟨_, rfl, rfl⟩
      | false => exact ⟨_, rfl, rfl⟩

end Emulator
end NorFlash
