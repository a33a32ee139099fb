import NorFlash.Proofs.Recorded
import NorFlash.Proofs.Writing

namespace NorFlash

namespace Command

/-- One more than the largest address that three bytes spell. -/
def addressLimit : Nat := 0x1000000

/-- If there is an address it stands in three bytes, most significant first, between the opcode and
the data. -/
def Survives (c : Command) : Prop :=
  ∀ addr, c.address = some addr → ∃ high mid low : UInt8,
    c.wire = Bytes.ofList [c.opcode, high, mid, low] ++ c.data ∧
      (high.toNat * 0x100 + mid.toNat) * 0x100 + low.toNat = addr

variable {c x y : Command} {addr a b : Nat}

theorem survives_of_lt (h : ∀ addr, c.address = some addr → addr < addressLimit) : c.Survives := by
  intro addr haddr
  have hlt := h addr haddr
  refine ⟨(addr / 0x10000).toUInt8, (addr / 0x100).toUInt8, addr.toUInt8, ?_, ?_⟩
  · unfold wire header
    rw [haddr]
    rfl
  · unfold addressLimit at hlt
    simp only [Nat.toUInt8, UInt8.toNat_ofNat']
    omega

theorem Survives.lt (h : c.Survives) (haddr : c.address = some addr) : addr < addressLimit := by
  obtain ⟨high, mid, low, _, rfl⟩ := h addr haddr
  have := high.toNat_lt
  have := mid.toNat_lt
  have := low.toNat_lt
  unfold addressLimit
  omega

theorem byteAt_wire (op high mid low : UInt8) (data : Bytes) :
    (Bytes.ofList [op, high, mid, low] ++ data).byteAt 1 = high ∧
      (Bytes.ofList [op, high, mid, low] ++ data).byteAt 2 = mid ∧
        (Bytes.ofList [op, high, mid, low] ++ data).byteAt 3 = low := by
  simp [Bytes.ofList, Bytes.byteAt_append, Bytes.byteAt_push]

/-- Where addresses survive, commands for different addresses go out as different bytes. -/
theorem Survives.address_eq (hx : x.Survives) (hy : y.Survives) (ha : x.address = some a)
    (hb : y.address = some b) (h : x.wire = y.wire) : a = b := by
  obtain ⟨high, mid, low, hwx, rfl⟩ := hx a ha
  obtain ⟨high', mid', low', hwy, rfl⟩ := hy b hb
  obtain ⟨hh, hm, hl⟩ := byteAt_wire x.opcode high mid low x.data
  obtain ⟨hh', hm', hl'⟩ := byteAt_wire y.opcode high' mid' low' y.data
  rw [← hwx, h, hwy] at hh hm hl
  rw [← hh, ← hm, ← hl, hh', hm', hl']

/-- Addresses that differ by the limit are sent as the same bytes. -/
theorem encodeAddress_add_limit (addr : Nat) :
    encodeAddress (addr + addressLimit) = encodeAddress addr := by
  have hbyte : ∀ n m, n % 0x100 = m % 0x100 → n.toUInt8 = m.toUInt8 := by
    intro n m h
    apply UInt8.toNat_inj.mp
    simpa [Nat.toUInt8] using h
  unfold encodeAddress addressLimit
  rw [hbyte ((addr + 0x1000000) / 0x10000) (addr / 0x10000) (by omega),
    hbyte ((addr + 0x1000000) / 0x100) (addr / 0x100) (by omega),
    hbyte (addr + 0x1000000) addr (by omega)]

theorem wire_readAt_add_limit (op : UInt8) (addr : Nat) (buffer buffer' : Bytes) :
    (readAt op (addr + addressLimit) buffer').wire = (readAt op addr buffer).wire :=
  congrArg (fun address => Bytes.ofList (op :: address) ++ ByteArray.empty)
    (encodeAddress_add_limit addr)

end Command

theorem Chunk.Piece.addr_lt {start len page : Nat} {k : Chunk} (hk : k.Piece start len page) :
    k.addr < start + len := by
  have hpos := hk.pos
  have hinside := hk.inside
  rw [hk.addr]
  omega

/-- A command that some programmer is sent when a range of the chip is read or programmed, or the
plan for it carried out. -/
inductive Chip.Asks (c : Chip) (x : Command) : Prop where
  | read {σ : Type} (p : Programmer σ) (s : σ) (addr len : Nat) (inside : addr + len ≤ c.size)
      (sent : x ∈ commandsOf (p.recorded.readChunked c addr len) s)
  | program {σ : Type} (p : Programmer σ) (s : σ) (addr : Nat) (data : Bytes)
      (inside : addr + data.size ≤ c.size)
      (sent : x ∈ commandsOf (p.recorded.writeChunked c addr data) s)
  | erase {σ : Type} (p : Programmer σ) (s : σ) (start len : Nat) (exact : Bool) (plan : Plan)
      (inside : start + len ≤ c.size) (made : Plan.make c.regions start len exact = .ok plan)
      (sent : x ∈ commandsOf (p.recorded.executePlan c plan) s)

variable {c : Chip} {x y : Command} {addr : Nat}

namespace Chip

theorem Asks.survives (hc : c.Accepted) (hsmall : c.size ≤ Command.addressLimit) (h : c.Asks x) :
    x.Survives := by
  have hstatus : (Command.readRegister Opcode.readStatus (Bytes.filled 1 0)).Survives := nofun
  have henable : (Command.bare Opcode.writeEnable).Survives := nofun
  have hat : ∀ {command : Command} {addr : Nat}, command.address = some addr → addr < c.size →
      command.Survives := by
    intro command addr haddr hlt
    refine Command.survives_of_lt fun addr' haddr' => ?_
    rw [haddr] at haddr'
    cases haddr'
    omega
  have hsize := hc.size_lt
  cases h with
  | read p s addr len inside sent =>
    refine Law.Obeys.commandsOf (q := fun _ => True) ((Law.judgment _ p).readChunked c ?_) s x sent
    intro _ most k hk buffer
    have hpiece := Transfer.piece_of_mem (by omega) hk
    exact .once (.readInto p) (hat rfl (Nat.lt_of_lt_of_le hpiece.addr_lt inside))
  | program p s addr data inside sent =>
    refine Law.Obeys.commandsOf (q := fun _ => True) ((Law.judgment _ p).writeChunked c ?_) s x sent
    intro _ most k hk piece
    have hpiece := Transfer.piece_of_mem (by omega) hk
    exact .programPage hstatus henable (hat rfl (Nat.lt_of_lt_of_le hpiece.addr_lt inside))
  | erase p s start len exact plan inside made sent =>
    refine Law.Obeys.commandsOf (q := fun _ => True) ((Law.judgment _ p).executePlan c ?_) s x sent
    intro b hb
    have hw : b.Within c.regions := (Plan.make_covers made).within b hb
    refine .eraseBlock hstatus henable ?_
    unfold Programmer.eraseCommand
    split
    · exact nofun
    · exact hat rfl (Nat.lt_of_lt_of_le hw.start_lt_stop (hw.inside hc))

end Chip

/-- A programmer that answers nothing, and carries one byte at a time. -/
def Programmer.deaf : Programmer Unit where
  maxRead _ := 1
  maxWrite _ := 1
  execute _ := Act.fail (.error .transferFailed)
  delay _ s := s
  report _ s := s
  note _ s := s

/-- A command that the deaf programmer was sent. -/
def Exchange.unheard (x : Command) : Exchange := ⟨x, .error (.error .transferFailed)⟩

/-- The first piece is asked for, and the walk ends there. -/
theorem Programmer.deaf_walk {t : Transfer} {buffer piece : Bytes} (hlt : t.start < t.stop)
    (hpiece : Bytes.slice? buffer (t.chunkAt t.start).offset
      ((t.chunkAt t.start).offset + (t.chunkAt t.start).len) = some piece) :
    t.walk deaf.recorded.readChunk buffer ((), []) =
      (.error (.error .transferFailed),
        ((), [.unheard (.readAt Opcode.readData (t.chunkAt t.start).addr piece)])) := by
  rw [Transfer.walk_eq_fold, Transfer.chunks, Transfer.chunksFrom, dif_pos hlt, Act.fold_cons]
  refine Act.bind_error ?_
  unfold Programmer.readChunk
  rw [hpiece]
  rfl

namespace Chip

/-- Every byte of a chip is read by some command with its address. -/
theorem asks_read (hc : c.Accepted) (h : addr < c.size) :
    ∃ buffer, c.Asks (.readAt Opcode.readData addr buffer) := by
  have hsize := hc.size_lt
  obtain ⟨t, ht⟩ := Transfer.exists_of? addr 1 hc.page_pos Nat.one_pos
  obtain ⟨hstart, hstop, _⟩ := Transfer.of?_ok ht
  have hlt : t.start < t.stop := by omega
  have hpiece : (t.chunkAt t.start).Piece t.start 1 t.page :=
    Transfer.chunkAt_piece (Nat.le_refl _) hlt (by omega) (by omega)
  have haddr : (t.chunkAt t.start).addr = addr := by
    rw [hstart]
    exact Transfer.chunkAt_addr (by omega)
  obtain ⟨buffer, hslice⟩ : ∃ buffer, Bytes.slice? (Bytes.filled 1 0) (t.chunkAt t.start).offset
      ((t.chunkAt t.start).offset + (t.chunkAt t.start).len) = some buffer :=
    ⟨_, Bytes.slice?_of_le (Nat.le_add_right _ _) (by simpa using hpiece.inside)⟩
  have hwalk := Programmer.deaf_walk hlt hslice
  rw [haddr] at hwalk
  refine ⟨buffer, .read Programmer.deaf () addr 1 (by omega) ?_⟩
  have hcheck : Programmer.deaf.recorded.checkRange c addr 1 ((), []) = (.ok (), ((), [])) :=
    if_pos (by simp only [holds, decide_eq_true_eq]; omega)
  have hmost : Programmer.deaf.recorded.maxRead ((), []) = 1 := rfl
  unfold commandsOf Programmer.readChunked Programmer.readRange
  rw [Bytes.size_filled, Act.bind_ok hcheck, Act.bind_ok (Act.read_apply _ _), hmost, ht]
  have hrun : (Stop.lift (.ok t) >>= fun t =>
      t.walk Programmer.deaf.recorded.readChunk (Bytes.filled 1 0)) ((), []) = _ :=
    (Act.bind_ok (x := Stop.lift (.ok t)) rfl).trans hwalk
  unfold Programmer.onError Act.onError
  simp only [hrun]
  exact List.mem_map.mpr ⟨.unheard _, List.mem_singleton.mpr rfl, rfl⟩

/-- Among the chips that are accepted, those of which all addresses survive and those that never
send two addresses as the same bytes are those of up to 16 MiB. -/
theorem addresses_survive_iff (hc : c.Accepted) :
    ((∀ x, c.Asks x → x.Survives) ↔ c.size ≤ Command.addressLimit) ∧
      ((∀ x y a b, c.Asks x → c.Asks y → x.address = some a → y.address = some b →
        x.wire = y.wire → a = b) ↔ c.size ≤ Command.addressLimit) := by
  refine ⟨⟨fun hall => ?_, fun hsmall x hx => hx.survives hc hsmall⟩, ⟨fun hall => ?_, ?_⟩⟩
  · by_contra hlarge
    obtain ⟨buffer, hasks⟩ := asks_read hc (Nat.lt_of_not_le hlarge)
    exact absurd ((hall _ hasks).lt rfl) (Nat.lt_irrefl _)
  · by_contra hlarge
    obtain ⟨buffer, hfirst⟩ := asks_read hc hc.size_pos
    obtain ⟨buffer', hasks⟩ := asks_read hc (Nat.lt_of_not_le hlarge)
    have hwire := (Command.wire_readAt_add_limit Opcode.readData 0 buffer buffer').symm
    rw [Nat.zero_add] at hwire
    exact absurd (hall _ _ _ _ hfirst hasks rfl rfl hwire) (by decide)
  · intro hsmall x y a b hx hy
    exact (hx.survives hc hsmall).address_eq (hy.survives hc hsmall)

end Chip

theorem Chip.addresses_survive_iff_sample :
    (∀ x, Chip.sample.Asks x → x.Survives) ∧
      ∀ x y a b, Chip.sample.Asks x → Chip.sample.Asks y → x.address = some a →
        y.address = some b → x.wire = y.wire → a = b :=
  ⟨(addresses_survive_iff sample_accepted).1.mpr (by decide),
    (addresses_survive_iff sample_accepted).2.mpr (by decide)⟩

/-- A chip of 32 MiB. -/
def Chip.large : Chip where
  id := ""
  vendor := ""
  name := ""
  manufacturer := 0
  model := 0
  size := 0x2000000
  pageSize := 256
  features := {}
  voltageMin := 2700
  voltageMax := 3600
  probe := .rdid
  regions := []

/-- The chip is taken from a vendor file, and a read in its upper half goes out as the one 16 MiB
below. -/
theorem Chip.large_blurs_addresses :
    large.vendorDefinition.toChips = .ok [large] ∧
      ∃ x y, large.Asks x ∧ large.Asks y ∧ x.address = some 0 ∧ y.address = some 0x1000000 ∧
        x.wire = y.wire := by
  have hload : large.vendorDefinition.toChips = .ok [large] := by cbv
  have hc : large.Accepted := toChips_vendorDefinition.mp hload
  obtain ⟨buffer, hlow⟩ : ∃ buffer, large.Asks (.readAt Opcode.readData 0 buffer) :=
    asks_read hc (by decide)
  obtain ⟨buffer', hhigh⟩ : ∃ buffer, large.Asks (.readAt Opcode.readData 0x1000000 buffer) :=
    asks_read hc (by decide)
  refine ⟨hload, _, _, hlow, hhigh, rfl, rfl, ?_⟩
  exact (Command.wire_readAt_add_limit Opcode.readData 0 buffer buffer').symm

end NorFlash
