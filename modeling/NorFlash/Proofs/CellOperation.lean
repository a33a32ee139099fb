import NorFlash.Emulator.Basic
import NorFlash.Erase.Block

namespace NorFlash

inductive CellOperation where
  | read (addr len : Nat)
  | erase (f : EraseFunction) (addr len : Nat)
  | program (addr : Nat) (data : Bytes)

/-- What each address holds. -/
abbrev Content : Type := Nat → UInt8

namespace CellOperation

/-- What the journal says of an operation. -/
def entry : CellOperation → Entry
  | read addr len => .read addr len
  | erase f addr len => .erase f.opcode addr len
  | program addr data => .program addr data.size

/-- Whether the operation may change what the address holds. -/
def Reaches (i : Nat) : CellOperation → Prop
  | read _ _ => False
  | erase _ addr len => addr ≤ i ∧ i < addr + len
  | program addr data => addr ≤ i ∧ i < addr + data.size

/-- Erasing sets every bit, programming clears bits. -/
def effect : CellOperation → Content → Content
  | read _ _, m => m
  | erase _ addr len, m => fun i => if addr ≤ i ∧ i < addr + len then Emulator.erased else m i
  | program addr data, m => fun i =>
    if addr ≤ i ∧ i < addr + data.size then m i &&& data.byteAt (i - addr) else m i

def effects (ops : List CellOperation) (m : Content) : Content :=
  ops.foldl (fun m op => op.effect m) m

/-- The operation programs nothing but bytes of `want`. -/
def Writes (want : Content) : CellOperation → Prop
  | program addr data => ∀ k < data.size, data.byteAt k = want (addr + k)
  | _ => False

/-- The operation that erases a block. -/
def ofBlock (b : Block) : CellOperation := erase b.function b.start b.size

/-- Nothing is programmed: the operation reads, or erases one of the blocks. -/
def Wipes (bs : List Block) (op : CellOperation) : Prop :=
  (∃ addr len, op = read addr len) ∨ ∃ b ∈ bs, op = ofBlock b

variable {op : CellOperation} {ops done wipes writes : List CellOperation} {want m : Content}
  {i : Nat} {b : Block} {bs : List Block}

@[simp] theorem effects_cons : effects (op :: ops) m = effects ops (op.effect m) := rfl

@[simp] theorem effects_append : effects (ops ++ done) m = effects done (effects ops m) :=
  List.foldl_append

theorem effect_of_not_reaches (h : ¬op.Reaches i) : op.effect m i = m i := by
  cases op with
  | read addr len => rfl
  | erase f addr len => exact if_neg h
  | program addr data => exact if_neg h

/-- An address that no operation reaches keeps what it holds. -/
theorem effects_of_not_reaches (h : ∀ op ∈ ops, ¬op.Reaches i) : effects ops m i = m i := by
  induction ops generalizing m with
  | nil => rfl
  | cons op ops ih =>
    rw [effects_cons, ih fun op hop => h op (List.mem_cons_of_mem _ hop)]
    exact effect_of_not_reaches (h op List.mem_cons_self)

theorem effects_reads (h : ∀ op ∈ ops, ∃ addr len, op = read addr len) : effects ops m = m := by
  funext i
  apply effects_of_not_reaches
  intro op hop
  obtain ⟨addr, len, rfl⟩ := h op hop
  exact id

/-- Before anything is programmed an address holds what it held, or is erased with its block. -/
theorem effects_wipes (h : ∀ op ∈ ops, op.Wipes bs) : effects ops m i = m i ∨
    (∃ b ∈ bs, b.start ≤ i ∧ i < b.stop) ∧ effects ops m i = Emulator.erased := by
  induction ops generalizing m with
  | nil => exact .inl rfl
  | cons op ops ih =>
    rw [effects_cons]
    rcases ih (m := op.effect m) fun op hop => h op (List.mem_cons_of_mem _ hop) with he | he
    · rcases h op List.mem_cons_self with ⟨addr, len, rfl⟩ | ⟨b, hb, rfl⟩
      · exact .inl he
      · by_cases hin : b.start ≤ i ∧ i < b.stop
        · exact .inr ⟨⟨b, hb, hin⟩, he.trans (if_pos hin)⟩
        · exact .inl (he.trans (if_neg hin))
    · exact .inr he

/-- An address is erased with any block that holds it, in whatever order the blocks come. -/
theorem effects_erases (hb : b ∈ bs) (hin : b.start ≤ i ∧ i < b.stop) :
    effects (bs.map ofBlock) m i = Emulator.erased := by
  obtain ⟨bs₁, bs₂, rfl⟩ := List.append_of_mem hb
  rw [List.map_append, effects_append, List.map_cons, effects_cons]
  have he : (ofBlock b).effect (effects (bs₁.map ofBlock) m) i = Emulator.erased := if_pos hin
  have hw : ∀ op ∈ bs₂.map ofBlock, op.Wipes bs₂ := by
    intro op hop
    obtain ⟨c, hc, rfl⟩ := List.mem_map.mp hop
    exact .inr ⟨c, hc, rfl⟩
  rcases effects_wipes hw with h | h
  · exact h.trans he
  · exact h.2

theorem effect_of_writes (hw : op.Writes want) (h : op.Reaches i) :
    op.effect m i = m i &&& want i := by
  cases op with
  | read addr len => exact hw.elim
  | erase f addr len => exact hw.elim
  | program addr data =>
    obtain ⟨hlo, hhi⟩ := h
    have hk : data.byteAt (i - addr) = want i := by
      rw [hw (i - addr) (by omega), Nat.add_sub_cancel' hlo]
    rw [← hk]
    exact if_pos ⟨hlo, hhi⟩

/-- Bits that are cleared already are not cleared again: an address that was programmed once with
what it is to hold stays as it is, however often it is programmed. -/
theorem effects_writes (hw : ∀ op ∈ ops, op.Writes want) (h : ∃ op ∈ ops, op.Reaches i) :
    effects ops m i = m i &&& want i := by
  induction ops generalizing m with
  | nil =>
    obtain ⟨op, hop, _⟩ := h
    cases hop
  | cons op ops ih =>
    have hop := hw op List.mem_cons_self
    have hops : ∀ op ∈ ops, op.Writes want := fun op hop => hw op (List.mem_cons_of_mem _ hop)
    have hhead : op.effect m i = m i ∨ op.effect m i = m i &&& want i := by
      by_cases hr : op.Reaches i
      · exact .inr (effect_of_writes hop hr)
      · exact .inl (effect_of_not_reaches hr)
    rw [effects_cons]
    by_cases htail : ∃ op ∈ ops, op.Reaches i
    · rw [ih hops htail]
      rcases hhead with he | he
      · rw [he]
      · rw [he, UInt8.and_assoc, UInt8.and_self]
    · have hno : ∀ op ∈ ops, ¬op.Reaches i := fun op hop hr => htail ⟨op, hop, hr⟩
      rw [effects_of_not_reaches hno]
      obtain ⟨op', hop', hr⟩ := h
      rcases List.mem_cons.mp hop' with rfl | hmem
      · exact effect_of_writes hop hr
      · exact absurd hr (hno op' hmem)

/-- After any first part of wiping and then writing, an address holds what it held, is erased with
its block, or holds already what it will hold in the end. -/
theorem effects_of_prefix (hwipe : ∀ op ∈ wipes, op.Wipes bs)
    (hwrite : ∀ op ∈ writes, op.Writes want) (h : done <+: wipes ++ writes) :
    effects done m i = m i ∨
      (∃ b ∈ bs, b.start ≤ i ∧ i < b.stop) ∧ effects done m i = Emulator.erased ∨
      (∃ op ∈ writes, op.Reaches i) ∧ effects done m i = effects (wipes ++ writes) m i := by
  obtain ⟨rest, hrest⟩ := h
  rcases List.append_eq_append_iff.mp hrest with ⟨left, hleft, _⟩ | ⟨begun, rfl, hwrites⟩
  · -- the part ends among the wipes
    have hdone : ∀ op ∈ done, op.Wipes bs := fun op hop =>
      hwipe op (hleft ▸ List.mem_append_left left hop)
    rcases effects_wipes hdone with he | he
    · exact .inl he
    · exact .inr (.inl he)
  · rw [effects_append, effects_append]
    by_cases hr : ∃ op ∈ begun, op.Reaches i
    · obtain ⟨op, hop, hreach⟩ := hr
      have hmem : op ∈ writes := hwrites ▸ List.mem_append_left rest hop
      have hbegun : ∀ op ∈ begun, op.Writes want := fun op hop =>
        hwrite op (hwrites ▸ List.mem_append_left rest hop)
      refine .inr (.inr ⟨⟨op, hmem, hreach⟩, ?_⟩)
      rw [effects_writes hbegun ⟨op, hop, hreach⟩, effects_writes hwrite ⟨op, hmem, hreach⟩]
    · rw [effects_of_not_reaches fun op hop hreach => hr ⟨op, hop, hreach⟩]
      rcases effects_wipes hwipe with he | he
      · exact .inl he
      · exact .inr (.inl he)

end CellOperation
end NorFlash
