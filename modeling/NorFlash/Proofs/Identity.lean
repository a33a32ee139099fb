import NorFlash.Emulator.Basic
import NorFlash.Proofs.Content
import NorFlash.Session.Selection

namespace NorFlash

namespace ProbeMethod

/-- The instruction that asks for identification. -/
def opcode : ProbeMethod → UInt8
  | .rdid | .rdid4 => Opcode.readId
  | .rems => Opcode.readManufacturer
  | .res1 | .res2 | .res3 => Opcode.readSignature

/-- Bytes of the answer that are asked for. -/
def width : ProbeMethod → Nat
  | .rdid => 3 | .rdid4 => 4 | .rems => 2
  | .res1 => 1 | .res2 => 2 | .res3 => 3

/-- Manufacturer and model fit into an answer. A manufacturer of two bytes begins with the
continuation byte, which no manufacturer of one byte is. -/
def Fits : ProbeMethod → (manufacturer model : Nat) → Prop
  | .rdid, m, d => (m ≤ 0xFF ∧ m ≠ 0x7F ∧ d ≤ 0xFFFF) ∨ (0x7F00 ≤ m ∧ m ≤ 0x7FFF ∧ d ≤ 0xFF)
  | .rdid4, m, d => (m ≤ 0xFF ∧ m ≠ 0x7F ∧ d ≤ 0xFFFF) ∨ (0x7F00 ≤ m ∧ m ≤ 0x7FFF ∧ d ≤ 0xFFFF)
  | .rems, m, d | .res2, m, d => m ≤ 0xFF ∧ d ≤ 0xFF
  | .res1, _, d => d ≤ 0xFF
  | .res3, m, d => m ≤ 0xFFFF ∧ d ≤ 0xFF

instance : ∀ p m d, Decidable (Fits p m d)
  | .rdid, _, _ | .rdid4, _, _ => inferInstanceAs (Decidable (_ ∨ _))
  | .rems, _, _ | .res2, _, _ | .res3, _, _ => inferInstanceAs (Decidable (_ ∧ _))
  | .res1, _, _ => inferInstanceAs (Decidable (_ ≤ _))

end ProbeMethod

namespace Chip

/-- Manufacturer and model fit into the bytes with which the chip identifies itself. -/
def Representable (c : Chip) : Prop := c.probe.Fits c.manufacturer c.model

instance (c : Chip) : Decidable c.Representable :=
  inferInstanceAs (Decidable (c.probe.Fits c.manufacturer c.model))

/-- What the chip answers when it is asked as one asks for `b`, as many bytes as are asked for. -/
def answerTo (a b : Chip) : Bytes := Emulator.identification a b.probe.opcode b.probe.width

/-- The chip can be told by its answer: it stands for no other chip, and its answer is not that of
an empty bus. -/
structure Probeable (c : Chip) : Prop where
  representable : c.Representable
  manufacturer_ne : c.manufacturer ≠ anyManufacturer
  model_ne : c.model ≠ anyModel
  answer_ne : c.answerTo c ≠ Bytes.filled c.probe.width 0xFF

instance (c : Chip) : Decidable c.Probeable :=
  decidable_of_iff (c.Representable ∧ c.manufacturer ≠ anyManufacturer ∧ c.model ≠ anyModel ∧
      c.answerTo c ≠ Bytes.filled c.probe.width 0xFF)
    ⟨fun ⟨h₁, h₂, h₃, h₄⟩ => ⟨h₁, h₂, h₃, h₄⟩, fun ⟨h₁, h₂, h₃, h₄⟩ => ⟨h₁, h₂, h₃, h₄⟩⟩

/-- Manufacturer and model as they are taken from the bytes of an answer. The signature of one byte
leaves the manufacturer open, which is taken to be the chip's. -/
def idsOf (c : Chip) (answer : Nat → UInt8) : Nat × Nat :=
  let b (i : Nat) : Nat := (answer i).toNat
  match c.probe with
  | .rdid => decodeRdid (answer 0) (answer 1) (answer 2) (answer 3) 3
  | .rdid4 => decodeRdid (answer 0) (answer 1) (answer 2) (answer 3) 4
  | .rems | .res2 => (b 0, b 1)
  | .res1 => (c.manufacturer, b 0)
  | .res3 => (b 0 * 0x100 + b 1, b 2)

end Chip

/-- Looks that leave the state as it is find the first element that they are good for. -/
theorem Act.first_eq_find? {σ ε β γ : Type} {f : γ → Act σ ε (Option β)} {g : γ → Bool} {b : β}
    {s : σ} {xs : List γ} (h : ∀ x ∈ xs, f x s = (.ok (if g x then some b else none), s)) :
    Act.first f xs s = (.ok ((xs.find? g).map fun x => (x, b)), s) := by
  induction xs with
  | nil => rfl
  | cons x xs ih =>
    have hx := h x List.mem_cons_self
    cases hg : g x with
    | true =>
      rw [hg] at hx
      simp [Act.first, hx, List.find?_cons_of_pos hg]
    | false =>
      rw [hg] at hx
      rw [List.find?_cons_of_neg (by simp [hg])]
      simp only [Act.first, hx]
      exact ih fun y hy => h y (List.mem_cons_of_mem _ hy)

variable {a b c : Chip} {op : UInt8} {i n : Nat}

namespace Emulator

/-- A byte of the answer to an instruction. Past the chip's own bytes, and to any other instruction,
it is the `0xFF` of the floating bus. -/
def answerAt (a : Chip) (op : UInt8) (i : Nat) : UInt8 :=
  if op == (identity a).1 then (identity a).2[i]?.getD 0xFF else 0xFF

theorem identity_opcode (a : Chip) : (identity a).1 = a.probe.opcode := by
  unfold identity ProbeMethod.opcode
  cases a.probe with
  | rdid | rdid4 => dsimp only; split <;> rfl
  | rems | res1 | res2 | res3 => rfl

theorem answerAt_own (a : Chip) (i : Nat) :
    answerAt a a.probe.opcode i = (identity a).2[i]?.getD 0xFF := by
  unfold answerAt
  rw [identity_opcode, if_pos (beq_self_eq_true _)]

theorem answerAt_of_ne (h : op ≠ a.probe.opcode) : answerAt a op i = 0xFF := by
  unfold answerAt
  rw [identity_opcode, if_neg (by simpa using h)]

/-- The bytes that the chip lays over the floating bus. -/
def known (a : Chip) (op : UInt8) (n : Nat) : List UInt8 :=
  if op == (identity a).1 then (identity a).2.take n else []

theorem known_length_le (a : Chip) (op : UInt8) (n : Nat) : (known a op n).length ≤ n := by
  unfold known
  by_cases h : op == (identity a).1
  · rw [if_pos h]
    exact List.length_take_le _ _
  · rw [if_neg h]
    exact Nat.zero_le n

theorem known_getD (h : i < n) : (known a op n)[i]?.getD 0xFF = answerAt a op i := by
  unfold known answerAt
  by_cases hown : op == (identity a).1
  · rw [if_pos hown, if_pos hown, List.getElem?_take_of_lt h]
  · rw [if_neg hown, if_neg hown]
    rfl

theorem identification_eq (a : Chip) (op : UInt8) (n : Nat) : identification a op n =
    Bytes.overlay (Bytes.filled n 0xFF) 0 (Bytes.ofList (known a op n)) := by
  apply Bytes.overlayFront_of_le_size
  rw [Bytes.size_ofList, Bytes.size_filled]
  exact known_length_le a op n

theorem known_fits (a : Chip) (op : UInt8) (n : Nat) :
    0 + (Bytes.ofList (known a op n)).size ≤ (Bytes.filled n 0xFF).size := by
  rw [Bytes.size_ofList, Bytes.size_filled, Nat.zero_add]
  exact known_length_le a op n

theorem size_identification (a : Chip) (op : UInt8) (n : Nat) :
    (identification a op n).size = n := by
  rw [identification_eq, Bytes.size_overlay (known_fits a op n), Bytes.size_filled]

theorem byteAt_identification (h : i < n) :
    (identification a op n).byteAt i = answerAt a op i := by
  rw [identification_eq, Bytes.byteAt_overlay (known_fits a op n), Bytes.size_ofList, Nat.sub_zero,
    ← known_getD h]
  by_cases hi : i < (known a op n).length
  · rw [if_pos (by omega), Bytes.byteAt_ofList, List.getElem?_eq_getElem hi]
    rfl
  · rw [if_neg (by omega), Bytes.byteAt_filled h, List.getElem?_eq_none (by omega)]
    rfl

/-- Answers are the same if their bytes are. -/
theorem identification_eq_iff :
    identification a op n = identification b op n ↔ ∀ i < n, answerAt a op i = answerAt b op i := by
  constructor
  · intro heq i hi
    rw [← byteAt_identification hi, heq, byteAt_identification hi]
  · intro h
    apply Bytes.ext_byteAt
    · rw [size_identification, size_identification]
    · intro i hi
      rw [size_identification] at hi
      rw [byteAt_identification hi, byteAt_identification hi, h i hi]

/-- To an instruction that is not its own a chip answers nothing. -/
theorem identification_of_ne (h : op ≠ a.probe.opcode) :
    identification a op n = Bytes.filled n 0xFF := by
  apply Bytes.ext_byteAt
  · rw [size_identification, Bytes.size_filled]
  · intro i hi
    rw [size_identification] at hi
    rw [byteAt_identification hi, answerAt_of_ne h, Bytes.byteAt_filled hi]

variable (e : Emulator)

theorem execute_identify (m : ProbeMethod) {c : Command} (h : c.opcode = m.opcode) :
    execute c e = (.ok (identification e.chip m.opcode c.buffer.size), e) := by
  unfold execute common?
  rw [h]
  cases m <;> rfl

/-- Asking for identification fills the front of the buffer and leaves the chip as it is. -/
theorem identify_eq {name : String} {command : Bytes → Command} {buffer : Bytes} (m : ProbeMethod)
    (hopcode : ∀ front, (command front).opcode = m.opcode)
    (hbuffer : ∀ front, (command front).buffer = front) (hn : n ≤ buffer.size) :
    programmer.identify name command buffer n e =
      (.ok (identification e.chip m.opcode n ++ Bytes.drop buffer n), e) := by
  have hfront : (buffer.extract 0 n).size = n := Bytes.size_extract_of_le hn
  have hexecute : programmer.execute (command (buffer.extract 0 n)) e =
      (.ok (identification e.chip m.opcode n), e) := by
    have h := execute_identify e m (hopcode (buffer.extract 0 n))
    rwa [hbuffer, hfront] at h
  have hsend : programmer.send (command (buffer.extract 0 n)) e =
      (.ok (identification e.chip m.opcode n), e) := by
    unfold Programmer.send
    rw [hexecute, hbuffer]
    dsimp only
    rw [Bytes.overlayFront_of_size_eq (by rw [size_identification, hfront])]
  unfold Programmer.identify
  rw [Bytes.slice?_of_le (Nat.zero_le n) hn]
  refine (Act.bind_ok rfl).trans ?_
  rw [Act.bind_ok hsend]
  rfl

theorem tellAll_eq (ns : List Notice) : programmer.tellAll ns e = (.ok (), e) := by
  induction ns with
  | nil => rfl
  | cons n ns ih => exact ih

/-- The bytes that were asked for are the chip's; no other byte of the buffer is. -/
theorem byteAt_answer (a : Chip) (op : UInt8) (rest : Bytes) (h : i < n) :
    (identification a op n ++ rest).byteAt i = answerAt a op i := by
  rw [Bytes.byteAt_append, size_identification, if_pos h, byteAt_identification h]

theorem readRdid_eq (hn : n ≤ 4) : programmer.readRdid n e =
    (.ok (identification e.chip Opcode.readId n ++
      Bytes.drop (Bytes.filled 4 Programmer.unanswered) n), e) :=
  identify_eq e .rdid (fun _ => rfl) (fun _ => rfl) (by rwa [Bytes.size_filled])

theorem readRems_eq : programmer.readRems e =
    (.ok (identification e.chip Opcode.readManufacturer 2 ++ Bytes.drop (Bytes.filled 2 0) 2), e) :=
  identify_eq e .rems (fun _ => rfl) (fun _ => rfl) (Nat.le_of_eq (Bytes.size_filled 2 0).symm)

theorem readRes_eq (hn : n ≤ 3) : programmer.readRes n e =
    (.ok (identification e.chip Opcode.readSignature n ++ Bytes.drop (Bytes.filled 3 0) n), e) :=
  identify_eq e .res1 (fun _ => rfl) (fun _ => rfl) (by rwa [Bytes.size_filled])

theorem probeRdid_eq {raw : Bytes} {ids : Nat × Nat}
    (hread : programmer.readRdid n e = (.ok raw, e))
    (hids : decodeRdid (raw.byteAt 0) (raw.byteAt 1) (raw.byteAt 2) (raw.byteAt 3) n = ids) :
    programmer.probeRdid b n e = (.ok (b.matchesIds ids.1 ids.2), e) := by
  unfold Programmer.probeRdid
  rw [Act.bind_ok hread]
  simp only [hids]
  exact Act.bind_ok (tellAll_eq e _)

end Emulator

namespace Chip

/-- A chip that stands for no other matches its own manufacturer and model only. -/
theorem matchesIds_eq (hm : b.manufacturer ≠ anyManufacturer) (hd : b.model ≠ anyModel)
    (ids : Nat × Nat) :
    b.matchesIds ids.1 ids.2 = decide (ids = (b.manufacturer, b.model)) := by
  obtain ⟨id1, id2⟩ := ids
  simp [matchesIds, hm, hd, Bool.beq_eq_decide_eq]

end Chip

namespace Emulator

theorem answered_eq {x : Act Emulator Stop Bytes} {raw : Bytes} {e : Emulator} (name : String)
    (n : Nat) (hx : x e = (.ok raw, e)) :
    programmer.answered name x n e = (.ok (!blankAnswer (raw.take n)), e) := by
  unfold Programmer.answered
  rw [hx]
  dsimp only
  cases blankAnswer (raw.take n) with
  | true => rfl
  | false => rfl

/-- A signature of one byte counts if both other ways of asking find the bus empty. -/
theorem probeRes1_of_answers {rdid rems : Bytes} {e : Emulator}
    (hrdid : programmer.readRdid 3 e = (.ok rdid, e))
    (hrems : programmer.readRems e = (.ok rems, e)) :
    programmer.probeRes1 b e = (.ok (blankAnswer (rdid.take 3) && (blankAnswer (rems.take 2) &&
      decide ((answerAt e.chip Opcode.readSignature 0).toNat = b.model))), e) := by
  unfold Programmer.probeRes1
  rw [Act.bind_ok (answered_eq _ _ hrdid)]
  cases blankAnswer (rdid.take 3) with
  | false => rfl
  | true =>
    refine (Act.bind_ok (answered_eq _ _ hrems)).trans ?_
    cases blankAnswer (rems.take 2) with
    | false => rfl
    | true =>
      refine (Act.bind_ok (readRes_eq e (by omega : 1 ≤ 3))).trans ?_
      rw [byteAt_answer _ _ _ (by omega : 0 < 1), ← Bool.beq_eq_decide_eq]
      rfl

/-- One byte of signature counts where it is not that of an empty bus. -/
theorem probeRes1_eq (e : Emulator) (hmodel : b.model ≠ 0xFF) : programmer.probeRes1 b e =
    (.ok (decide ((answerAt e.chip Opcode.readSignature 0).toNat = b.model)), e) := by
  rw [probeRes1_of_answers (readRdid_eq e (by omega)) (readRems_eq e)]
  by_cases hsig : Opcode.readSignature = e.chip.probe.opcode
  · -- A chip that answers with a signature answers no other way of asking.
    have hrdid : Opcode.readId ≠ e.chip.probe.opcode := by rw [← hsig]; decide
    have hrems : Opcode.readManufacturer ≠ e.chip.probe.opcode := by rw [← hsig]; decide
    have hblank₃ : blankAnswer (Bytes.take (Bytes.filled 3 0xFF ++
        Bytes.drop (Bytes.filled 4 Programmer.unanswered) 3) 3) = true := by decide +kernel
    have hblank₂ : blankAnswer (Bytes.take (Bytes.filled 2 0xFF ++
        Bytes.drop (Bytes.filled 2 0) 2) 2) = true := by decide +kernel
    rw [identification_of_ne hrdid, identification_of_ne hrems, hblank₃, hblank₂, Bool.true_and,
      Bool.true_and]
  · -- Of any other chip the signature is blank, whatever the other answers are.
    have hblank : (answerAt e.chip Opcode.readSignature 0).toNat ≠ b.model := by
      rw [answerAt_of_ne hsig]
      exact Ne.symm hmodel
    rw [decide_eq_false hblank, Bool.and_false, Bool.and_false]

theorem probeChip_of_probeBy {e : Emulator} {found : Bool}
    (h : programmer.probeBy b b.probe e = (.ok found, e)) :
    programmer.probeChip b e = (.ok found, e) := by
  unfold Programmer.probeChip
  rw [h]

end Emulator

theorem toNat_toUInt8 (h : n ≤ 0xFF) : n.toUInt8.toNat = n :=
  UInt8.toNat_ofNat_of_lt' (Nat.lt_succ_of_le h)

theorem toNat_pair (h : n ≤ 0xFFFF) : (n / 0x100).toUInt8.toNat * 0x100 + n.toUInt8.toNat = n := by
  simp only [Nat.toUInt8, UInt8.toNat_ofNat']
  omega

/-- A manufacturer of one byte is not taken for the beginning of a longer one. -/
theorem toUInt8_ne_continuation (h : n ≤ 0xFF) (hne : n ≠ 0x7F) :
    n.toUInt8 ≠ Opcode.continuation := by
  intro heq
  apply hne
  rw [← toNat_toUInt8 h, heq]
  rfl

theorem high_eq_continuation (hlo : 0x7F00 ≤ n) (hhi : n ≤ 0x7FFF) :
    (n / 0x100).toUInt8 = Opcode.continuation := by
  have h : n / 0x100 = 0x7F := by omega
  rw [h]
  rfl

variable {m d : Nat}

theorem decodeRdid_of_ne {b0 : UInt8} (b1 b2 b3 : UInt8) (n : Nat) (h : b0 ≠ Opcode.continuation) :
    decodeRdid b0 b1 b2 b3 n = (b0.toNat, b1.toNat * 0x100 + b2.toNat) :=
  if_neg (by simpa using h)

theorem decodeRdid_continuation (b1 b2 b3 : UInt8) (n : Nat) :
    decodeRdid Opcode.continuation b1 b2 b3 n =
      (0x7F00 + b1.toNat, if 3 < n then b2.toNat * 0x100 + b3.toNat else b2.toNat) :=
  if_pos rfl

theorem decodeRdid_short (hm : m ≤ 0xFF) (hne : m ≠ 0x7F) (hd : d ≤ 0xFFFF) (b3 : UInt8) (n : Nat) :
    decodeRdid m.toUInt8 (d / 0x100).toUInt8 d.toUInt8 b3 n = (m, d) := by
  rw [decodeRdid_of_ne _ _ _ _ (toUInt8_ne_continuation hm hne), toNat_toUInt8 hm, toNat_pair hd]

theorem decodeRdid_long (hlo : 0x7F00 ≤ m) (hhi : m ≤ 0x7FFF) (b2 b3 : UInt8) (n : Nat) :
    decodeRdid (m / 0x100).toUInt8 m.toUInt8 b2 b3 n =
      (m, if 3 < n then b2.toNat * 0x100 + b3.toNat else b2.toNat) := by
  have hm := toNat_pair (by omega : m ≤ 0xFFFF)
  rw [high_eq_continuation hlo hhi] at hm ⊢
  rw [decodeRdid_continuation]
  exact congrArg (·, _) hm

namespace Chip

/-- From its own answer a chip's manufacturer and model are taken. -/
theorem idsOf_own (h : c.Representable) :
    c.idsOf (Emulator.answerAt c c.probe.opcode) = (c.manufacturer, c.model) := by
  have hown := Emulator.answerAt_own c
  unfold Emulator.identity at hown
  unfold Representable ProbeMethod.Fits at h
  unfold idsOf
  cases hp : c.probe with
  | rdid =>
    simp only [hp] at h hown ⊢
    rcases h with ⟨hm, hne, hd⟩ | ⟨hlo, hhi, hd⟩
    · simp only [if_neg (by omega : ¬0xFF < c.manufacturer)] at hown
      simp only [hown]
      exact decodeRdid_short hm hne hd _ _
    · simp only [if_pos (by omega : 0xFF < c.manufacturer)] at hown
      simp only [hown]
      refine (decodeRdid_long hlo hhi _ _ _).trans ?_
      exact congrArg (c.manufacturer, ·) (toNat_toUInt8 hd)
  | rdid4 =>
    simp only [hp] at h hown ⊢
    rcases h with ⟨hm, hne, hd⟩ | ⟨hlo, hhi, hd⟩
    · simp only [if_neg (by omega : ¬0xFF < c.manufacturer)] at hown
      simp only [hown]
      exact decodeRdid_short hm hne hd _ _
    · simp only [if_pos (by omega : 0xFF < c.manufacturer)] at hown
      simp only [hown]
      refine (decodeRdid_long hlo hhi _ _ _).trans ?_
      exact congrArg (c.manufacturer, ·) (toNat_pair hd)
  | rems =>
    simp only [hp] at h hown ⊢
    simp only [hown]
    exact Prod.ext (toNat_toUInt8 h.1) (toNat_toUInt8 h.2)
  | res1 =>
    simp only [hp] at h hown ⊢
    simp only [hown]
    exact Prod.ext rfl (toNat_toUInt8 h)
  | res2 =>
    simp only [hp] at h hown ⊢
    simp only [hown]
    exact Prod.ext (toNat_toUInt8 h.1) (toNat_toUInt8 h.2)
  | res3 =>
    simp only [hp] at h hown ⊢
    simp only [hown]
    exact Prod.ext (toNat_pair h.1) (toNat_toUInt8 h.2)

/-- An answer that does not begin with the continuation byte does not reach the fourth byte. -/
theorem Representable.answerAt_three (h : a.Representable) (op : UInt8)
    (hfirst : Emulator.answerAt a op 0 ≠ Opcode.continuation) :
    Emulator.answerAt a op 3 = 0xFF := by
  by_cases hop : op = a.probe.opcode
  · subst hop
    rw [Emulator.answerAt_own] at hfirst ⊢
    unfold Emulator.identity at hfirst ⊢
    unfold Representable ProbeMethod.Fits at h
    cases hp : a.probe with
    | rdid =>
      simp only
      split <;> rfl
    | rdid4 =>
      simp only [hp] at h hfirst ⊢
      rcases h with ⟨hm, _, _⟩ | ⟨hlo, hhi, _⟩
      · rw [if_neg (by omega)]
        rfl
      · rw [if_pos (by omega)] at hfirst
        exact absurd (high_eq_continuation hlo hhi) hfirst
    | rems | res1 | res2 | res3 => rfl
  · exact Emulator.answerAt_of_ne hop

end Chip

theorem pair_inj {x y x' y' : UInt8}
    (h : x.toNat * 0x100 + y.toNat = x'.toNat * 0x100 + y'.toNat) : x = x' ∧ y = y' := by
  have hy := y.toNat_lt
  have hy' := y'.toNat_lt
  exact ⟨UInt8.toNat_inj.mp (by omega), UInt8.toNat_inj.mp (by omega)⟩

/-- Decoding loses none of the bytes that it looks at. -/
theorem decodeRdid_inj {x0 x1 x2 x3 y0 y1 y2 y3 : UInt8}
    (h : decodeRdid x0 x1 x2 x3 n = decodeRdid y0 y1 y2 y3 n) :
    x0 = y0 ∧ x1 = y1 ∧ x2 = y2 ∧ (3 < n → x0 = Opcode.continuation → x3 = y3) := by
  have hx0 := x0.toNat_lt
  have hy0 := y0.toNat_lt
  by_cases hx : x0 = Opcode.continuation
  · by_cases hy : y0 = Opcode.continuation
    · subst hx hy
      rw [decodeRdid_continuation, decodeRdid_continuation, Prod.mk.injEq] at h
      obtain ⟨h1, h2⟩ := h
      have hx1 : x1 = y1 := UInt8.toNat_inj.mp (by omega)
      by_cases hn : 3 < n
      · rw [if_pos hn, if_pos hn] at h2
        obtain ⟨hx2, hx3⟩ := pair_inj h2
        exact ⟨rfl, hx1, hx2, fun _ _ => hx3⟩
      · rw [if_neg hn, if_neg hn] at h2
        exact ⟨rfl, hx1, UInt8.toNat_inj.mp h2, fun h => absurd h hn⟩
    · subst hx
      rw [decodeRdid_continuation, decodeRdid_of_ne _ _ _ _ hy, Prod.mk.injEq] at h
      omega
  · by_cases hy : y0 = Opcode.continuation
    · subst hy
      rw [decodeRdid_continuation, decodeRdid_of_ne _ _ _ _ hx, Prod.mk.injEq] at h
      omega
    · rw [decodeRdid_of_ne _ _ _ _ hx, decodeRdid_of_ne _ _ _ _ hy, Prod.mk.injEq] at h
      obtain ⟨hx1, hx2⟩ := pair_inj h.2
      exact ⟨UInt8.toNat_inj.mp h.1, hx1, hx2, fun _ h => absurd h hx⟩

namespace Chip

variable {x y : Nat → UInt8}

theorem idsOf_congr (h : ∀ i < b.probe.width, x i = y i) : b.idsOf x = b.idsOf y := by
  unfold idsOf
  cases hp : b.probe with
  | rdid =>
    rw [hp] at h
    simp only [h 0 (by decide), h 1 (by decide), h 2 (by decide)]
    rfl
  | rdid4 =>
    rw [hp] at h
    simp only [h 0 (by decide), h 1 (by decide), h 2 (by decide), h 3 (by decide)]
  | rems | res2 =>
    rw [hp] at h
    simp only [h 0 (by decide), h 1 (by decide)]
  | res1 =>
    rw [hp] at h
    simp only [h 0 (by decide)]
  | res3 =>
    rw [hp] at h
    simp only [h 0 (by decide), h 1 (by decide), h 2 (by decide)]

/-- Answers from which the same manufacturer and model are taken are the same, as far as they are
read. -/
theorem eq_of_idsOf (hx : x 0 ≠ Opcode.continuation → x 3 = 0xFF)
    (hy : y 0 ≠ Opcode.continuation → y 3 = 0xFF) (h : b.idsOf x = b.idsOf y) :
    ∀ i < b.probe.width, x i = y i := by
  unfold idsOf at h
  cases hp : b.probe with
  | rdid =>
    simp only [hp] at h
    obtain ⟨h0, h1, h2, _⟩ := decodeRdid_inj h
    intro i hi
    match i, hi with
    | 0, _ => exact h0
    | 1, _ => exact h1
    | 2, _ => exact h2
  | rdid4 =>
    simp only [hp] at h
    obtain ⟨h0, h1, h2, h3⟩ := decodeRdid_inj h
    -- Where the fourth byte is not looked at, it is `0xFF` in both.
    have h3' : x 3 = y 3 := by
      by_cases hc : x 0 = Opcode.continuation
      · exact h3 (by decide) hc
      · rw [hx hc, hy (h0 ▸ hc)]
    intro i hi
    match i, hi with
    | 0, _ => exact h0
    | 1, _ => exact h1
    | 2, _ => exact h2
    | 3, _ => exact h3'
  | rems | res2 =>
    simp only [hp, Prod.mk.injEq] at h
    intro i hi
    match i, hi with
    | 0, _ => exact UInt8.toNat_inj.mp h.1
    | 1, _ => exact UInt8.toNat_inj.mp h.2
  | res1 =>
    simp only [hp, Prod.mk.injEq] at h
    intro i hi
    match i, hi with
    | 0, _ => exact UInt8.toNat_inj.mp h.2
  | res3 =>
    simp only [hp, Prod.mk.injEq] at h
    obtain ⟨h0, h1⟩ := pair_inj h.1
    intro i hi
    match i, hi with
    | 0, _ => exact h0
    | 1, _ => exact h1
    | 2, _ => exact UInt8.toNat_inj.mp h.2

end Chip

/-- A signature of one byte is not that of an empty bus. -/
theorem Chip.Probeable.model_ne_blank (h : b.Probeable) (hp : b.probe = .res1) :
    b.model ≠ 0xFF := by
  intro hmodel
  apply h.answer_ne
  apply Bytes.ext_byteAt
  · rw [Chip.answerTo, Emulator.size_identification, Bytes.size_filled]
  · intro i hi
    rw [Chip.answerTo, Emulator.size_identification] at hi
    rw [Chip.answerTo, Emulator.byteAt_identification hi, Bytes.byteAt_filled hi,
      Emulator.answerAt_own]
    rw [hp] at hi
    obtain rfl : i = 0 := Nat.lt_one_iff.mp hi
    simp only [Emulator.identity, hp, hmodel]
    rfl

namespace Emulator

theorem probeRems_eq (e : Emulator) : programmer.probeRems b e =
    (.ok (b.matchesIds (answerAt e.chip Opcode.readManufacturer 0).toNat
      (answerAt e.chip Opcode.readManufacturer 1).toNat), e) := by
  unfold Programmer.probeRems
  rw [Act.bind_ok (readRems_eq e), byteAt_answer _ _ _ (by omega), byteAt_answer _ _ _ (by omega)]
  rfl

theorem probeSignature_eq (e : Emulator) (id1 id2 : Nat) : programmer.probeSignature b id1 id2 e =
    (.ok (decide ((id1, id2) = (b.manufacturer, b.model))), e) := by
  have hids : (id1 == b.manufacturer && id2 == b.model) =
      decide ((id1, id2) = (b.manufacturer, b.model)) := by
    simp [Bool.beq_eq_decide_eq]
  rw [← hids]
  rfl

theorem probeRes2_eq (e : Emulator) : programmer.probeRes2 b e =
    (.ok (decide (((answerAt e.chip Opcode.readSignature 0).toNat,
      (answerAt e.chip Opcode.readSignature 1).toNat) = (b.manufacturer, b.model))), e) := by
  unfold Programmer.probeRes2
  rw [Act.bind_ok (readRes_eq e (by omega)), byteAt_answer _ _ _ (by omega),
    byteAt_answer _ _ _ (by omega), probeSignature_eq]

theorem probeRes3_eq (e : Emulator) : programmer.probeRes3 b e =
    (.ok (decide (((answerAt e.chip Opcode.readSignature 0).toNat * 0x100 +
      (answerAt e.chip Opcode.readSignature 1).toNat,
      (answerAt e.chip Opcode.readSignature 2).toNat) = (b.manufacturer, b.model))), e) := by
  unfold Programmer.probeRes3
  rw [Act.bind_ok (readRes_eq e (by omega)), byteAt_answer _ _ _ (by omega),
    byteAt_answer _ _ _ (by omega), byteAt_answer _ _ _ (by omega), probeSignature_eq]

/-- Asking for any chip has an answer and leaves the emulated chip as it is. -/
theorem probeBy_keeps (b : Chip) (e : Emulator) :
    ∃ found, programmer.probeBy b b.probe e = (.ok found, e) := by
  cases b.probe with
  | rdid => exact ⟨_, probeRdid_eq e (readRdid_eq e (by omega)) rfl⟩
  | rdid4 => exact ⟨_, probeRdid_eq e (readRdid_eq e (by omega)) rfl⟩
  | rems => exact ⟨_, probeRems_eq e⟩
  | res1 => exact ⟨_, probeRes1_of_answers (readRdid_eq e (by omega)) (readRems_eq e)⟩
  | res2 => exact ⟨_, probeRes2_eq e⟩
  | res3 => exact ⟨_, probeRes3_eq e⟩

/-- Whoever asks for a chip compares what is taken from the answer. -/
theorem probeBy_eq (e : Emulator) (h : b.Probeable) : programmer.probeBy b b.probe e =
    (.ok (decide (b.idsOf (answerAt e.chip b.probe.opcode) = (b.manufacturer, b.model))), e) := by
  have hmatch := Chip.matchesIds_eq h.manufacturer_ne h.model_ne
  cases hp : b.probe with
  | rdid =>
    rw [← hmatch]
    refine probeRdid_eq e (readRdid_eq e (by omega)) ?_
    rw [byteAt_answer _ _ _ (by omega), byteAt_answer _ _ _ (by omega),
      byteAt_answer _ _ _ (by omega)]
    simp only [Chip.idsOf, hp]
    rfl
  | rdid4 =>
    rw [← hmatch]
    refine probeRdid_eq e (readRdid_eq e (by omega)) ?_
    rw [byteAt_answer _ _ _ (by omega), byteAt_answer _ _ _ (by omega),
      byteAt_answer _ _ _ (by omega), byteAt_answer _ _ _ (by omega)]
    simp only [Chip.idsOf, hp]
    rfl
  | rems =>
    rw [← hmatch]
    refine (probeRems_eq e).trans ?_
    simp only [Chip.idsOf, hp, ProbeMethod.opcode]
  | res1 =>
    refine (probeRes1_eq e (h.model_ne_blank hp)).trans ?_
    simp [Chip.idsOf, hp, ProbeMethod.opcode]
  | res2 =>
    refine (probeRes2_eq e).trans ?_
    simp only [Chip.idsOf, hp, ProbeMethod.opcode]
  | res3 =>
    refine (probeRes3_eq e).trans ?_
    simp only [Chip.idsOf, hp, ProbeMethod.opcode]

/-- A chip is found if the answer is its own, and asking leaves the emulated chip as it is. -/
theorem probeChip_eq (e : Emulator) (ha : e.chip.Representable) (hb : b.Probeable) :
    programmer.probeChip b e = (.ok (decide (e.chip.answerTo b = b.answerTo b)), e) := by
  have hids : b.idsOf (answerAt e.chip b.probe.opcode) = (b.manufacturer, b.model) ↔
      e.chip.answerTo b = b.answerTo b := by
    rw [← Chip.idsOf_own hb.representable, Chip.answerTo, Chip.answerTo, identification_eq_iff]
    constructor
    · exact Chip.eq_of_idsOf (ha.answerAt_three _) (hb.representable.answerAt_three _)
    · exact Chip.idsOf_congr
  rw [probeChip_of_probeBy (probeBy_eq e hb), decide_eq_decide.mpr hids]

variable {e : Emulator} {chips : List Chip}

theorem present_eq (ha : e.chip.Representable) (hb : b.Probeable) :
    programmer.present b e = (.ok (decide (e.chip.answerTo b = b.answerTo b)), e) := by
  unfold Programmer.present Act.mapError
  rw [probeChip_eq e ha hb]

/-- Automatic selection takes the first chip whose own answer comes back. -/
theorem selectChip_automatic_eq (ha : e.chip.Representable) (hchips : ∀ b ∈ chips, b.Probeable) :
    programmer.selectChip chips automatic e =
      match chips.find? fun b => e.chip.answerTo b = b.answerTo b with
      | some b => (.ok b, e)
      | none => (.error (.error (.notFound .chip)), e) := by
  have hfirst : Act.first (fun c => do return if ← programmer.present c then some () else none)
      chips e = (.ok ((chips.find? fun b => e.chip.answerTo b = b.answerTo b).map (·, ())), e) := by
    apply Act.first_eq_find?
    intro b hb
    rw [Act.bind_ok (present_eq ha (hchips b hb))]
    rfl
  unfold Programmer.selectChip Programmer.detectChip
  rw [if_pos (beq_self_eq_true _), Act.bind_ok hfirst]
  cases chips.find? fun b => decide (e.chip.answerTo b = b.answerTo b) with
  | none => rfl
  | some b => rfl

/-- Identification goes through an emulated chip and back. Asking for any chip leaves cells, latch,
busy count and journal as they are. The answer is yes if the bytes that come back are the ones that
the chip would answer which is asked for, as for the emulated chip itself. So automatic selection
takes the first chip of which this is true, and finds none if there is none. -/
theorem identification_round_trips (e : Emulator) (ha : e.chip.Representable) :
    (∀ b : Chip, ∃ found, programmer.probeChip b e = (.ok found, e)) ∧
    (∀ b : Chip, b.Probeable →
      programmer.probeChip b e = (.ok (decide (e.chip.answerTo b = b.answerTo b)), e)) ∧
    (e.chip.Probeable → programmer.probeChip e.chip e = (.ok true, e)) ∧
    (∀ chips : List Chip, (∀ b ∈ chips, b.Probeable) →
      programmer.selectChip chips automatic e =
        match chips.find? fun b => e.chip.answerTo b = b.answerTo b with
        | some b => (.ok b, e)
        | none => (.error (.error (.notFound .chip)), e)) := by
  refine ⟨fun b => ?_, fun b hb => probeChip_eq e ha hb, fun hown => ?_, fun chips hchips => ?_⟩
  · obtain ⟨found, hfound⟩ := probeBy_keeps b e
    exact ⟨found, probeChip_of_probeBy hfound⟩
  · rw [probeChip_eq e ha hown, decide_eq_true rfl]
  · exact selectChip_automatic_eq ha hchips

/-- Of the known chips the one that is emulated is found. -/
theorem identification_round_trips_catalog :
    Chip.w25q128fv.Representable ∧ (∀ b ∈ Chip.catalog, b.Probeable) ∧
      programmer.probeChip Chip.m25p40Old (ofChip Chip.w25q128fv) =
        (.ok false, ofChip Chip.w25q128fv) ∧
      programmer.selectChip Chip.catalog automatic (ofChip Chip.w25q128fv) =
        (.ok Chip.w25q128fv, ofChip Chip.w25q128fv) := by
  have hrepresentable : Chip.w25q128fv.Representable := by decide
  have hprobeable : ∀ b ∈ Chip.catalog, b.Probeable := by decide +kernel
  obtain ⟨_, hprobe, _, hselect⟩ :=
    identification_round_trips (ofChip Chip.w25q128fv) hrepresentable
  refine ⟨hrepresentable, hprobeable, ?_, ?_⟩
  · exact hprobe Chip.m25p40Old (hprobeable _ (by decide))
  · exact hselect Chip.catalog hprobeable

end Emulator
end NorFlash
