import Mathlib.Order.Interval.Set.LinearOrder
import NorFlash.Proofs.Refusal
import NorFlash.Proofs.Safeguards

namespace NorFlash

/-- The chip finds the region's blocks by instruction and address alone. -/
structure Region.Agrees (c : Chip) (r : Region) : Prop where
  aligned : r.blockSize ∣ r.start
  sized : Emulator.eraseSize? c r.function = some r.blockSize

/-- Erasing the block ends well, with its bytes erased and no others changed. -/
def Emulator.ErasesExactly (e : Emulator) (b : Block) : Prop :=
  ∃ e', programmer.eraseBlock b.function b.start b.size e.chip.size e = (.ok (), e') ∧
    e'.cells.size = e.cells.size ∧
    ∀ i, e'.cells.byteAt i = if b.start ≤ i ∧ i < b.stop then erased else e.cells.byteAt i

variable {c : Chip} {r : Region} {b : Block} {e : Emulator} {size i : Nat}

theorem Chip.Accepted.within (hc : c.Accepted) (hr : r ∈ c.regions) (hact : r.active = true)
    (hi : i < r.blockCount) : Block.Within c.regions ⟨r, i⟩ := by
  refine ⟨hr, hact, hi, ?_⟩
  have hstop : r.start + r.blockSize * r.blockCount ≤ c.size := (hc.regions r hr).inside hact
  have hle : i * r.blockSize ≤ r.blockSize * r.blockCount := by
    rw [Nat.mul_comm]
    exact Nat.mul_le_mul_left _ (Nat.le_of_lt hi)
  have hlt := hc.size_lt
  dsimp only
  omega

theorem Block.Within.exists_eraseSize? (hw : b.Within c.regions) (hc : c.Accepted) :
    ∃ size, 0 < size ∧ Emulator.eraseSize? c b.function = some size := by
  cases hf : b.function.erasesChip with
  | true => exact ⟨c.size, hc.size_pos, if_pos hf⟩
  | false =>
    obtain ⟨r, _, hact, _, hsize⟩ := hw.exists_first hf
    exact ⟨r.blockSize, Region.blockSize_pos hact, hsize⟩

/-- All blocks of a region are as far from the grid of their size as the region is. -/
theorem Block.Within.start_mod (hw : b.Within c.regions) :
    b.start % b.size = b.region.start % b.size := by
  rw [hw.start_eq]
  exact Nat.add_mul_mod_self_right _ _ _

namespace Emulator

/-- The erased bytes are those of the block of this size that holds the address. -/
theorem eraseBlock_rounds (hc : c.Accepted) (he : e.Emulates c) (hw : b.Within c.regions)
    (hpos : 0 < size) (hk : eraseSize? c b.function = some size)
    (hs : b.start - b.start % size + size ≤ c.size) :
    ∃ e', programmer.eraseBlock b.function b.start b.size c.size e = (.ok (), e') ∧
      e'.cells.size = e.cells.size ∧ ∀ i, e'.cells.byteAt i =
        if b.start - b.start % size ≤ i ∧ i < b.start - b.start % size + size then erased
        else e.cells.byteAt i := by
  have hrun : Performs id True
      (programmer.eraseBlock b.function b.start b.size c.size) e _ _ :=
    (programmer_carries True).eraseRounded he hk hpos hs (hw.whole hc)
  obtain ⟨_, e', hx, ha, _⟩ := hrun.exists_ok trivial
  exact ⟨e', hx, ha.size, fun i => congrFun ha.content i⟩

/-- Where that block is not all there nothing is erased. -/
theorem eraseBlock_refuses (hc : c.Accepted) (he : e.Emulates c) (hw : b.Within c.regions)
    (hpos : 0 < size) (hk : eraseSize? c b.function = some size)
    (hs : c.size < b.start - b.start % size + size) :
    FailsAfter id (programmer.eraseBlock b.function b.start b.size c.size) e []
      (.erase (.commandFailed b.start)) := by
  have hwhole := hw.whole hc
  rw [Programmer.eraseBlock_unguarded hwhole]
  refine Performs.bind_fails_at_once ((programmer_carries True).enableErase _ _) ?_
  intro _ e₁ h₁ hl
  have he₁ : e₁.Emulates c := he.after h₁
  have hlatch : (b.function.needsWriteEnable && !e₁.latch) = false := by simpa using hl
  have hx : programmer.execute (Programmer.eraseCommand b.function b.start) e₁ =
      (.error (.error .addressOutOfBounds), e₁) := by
    refine (e₁.execute_erase b.function b.start).trans ?_
    rw [eraseAddress_eq fun hf => (hwhole hf).1]
    unfold erase
    rw [hlatch, if_neg (by decide), he₁.chip, hk]
    simp only [eraseCells]
    rw [if_neg (by simp; omega), if_pos (he₁.size ▸ hs)]
  refine .bind ⟨e₁, ?_, .refl e₁⟩
  simp only [Programmer.sendErase, Programmer.onError, Act.mapError, Act.bind_apply, Act.onError,
    Programmer.send, hx]
  rfl

theorem erasesExactly_of_agrees (hc : c.Accepted) (he : e.Emulates c) (hw : b.Within c.regions)
    (ha : b.region.Agrees c) : e.ErasesExactly b := by
  have hmod : b.start % b.size = 0 := hw.start_mod.trans (Nat.mod_eq_zero_of_dvd ha.aligned)
  have hstart : b.start - b.start % b.size = b.start := by rw [hmod, Nat.sub_zero]
  have h := eraseBlock_rounds hc he hw hw.size_pos ha.sized (by rw [hstart]; exact hw.inside hc)
  rw [hstart] at h
  unfold ErasesExactly
  rw [he.chip]
  exact h

/-- The chip with every bit programmed. -/
def zeroed (c : Chip) : Emulator := { ofChip c with cells := Bytes.filled c.size 0 }

theorem zeroed_emulates (c : Chip) : (zeroed c).Emulates c :=
  ⟨rfl, Bytes.size_filled c.size 0, Nat.two_pow_pos 32, Nat.two_pow_pos 32⟩

theorem zeroed_ne_erased (c : Chip) (i : Nat) : (zeroed c).cells.byteAt i ≠ erased := by
  have hzero : (zeroed c).cells.byteAt i = 0 := by
    by_cases hi : i < c.size
    · exact Bytes.byteAt_filled hi
    · exact Bytes.byteAt_of_le (by rw [(zeroed_emulates c).size]; omega)
  rw [hzero]
  decide

theorem erased_unique {lo hi lo' hi' : Nat} {cells : Bytes}
    (h : ∀ i, cells.byteAt i = if lo ≤ i ∧ i < hi then erased else (zeroed c).cells.byteAt i)
    (h' : ∀ i, cells.byteAt i = if lo' ≤ i ∧ i < hi' then erased else (zeroed c).cells.byteAt i) :
    Set.Ico lo hi = Set.Ico lo' hi' := by
  have hmem {lo hi : Nat}
      (h : ∀ i, cells.byteAt i = if lo ≤ i ∧ i < hi then erased else (zeroed c).cells.byteAt i)
      (i : Nat) : i ∈ Set.Ico lo hi ↔ cells.byteAt i = erased := by
    rw [h i, Set.mem_Ico]
    split
    case isTrue hi => exact ⟨fun _ => rfl, fun _ => hi⟩
    case isFalse hi => exact ⟨fun hin => absurd hin hi, fun he => absurd he (zeroed_ne_erased c i)⟩
  ext i
  rw [hmem h, hmem h']

/-- If the block that the chip finds is not the one that is meant, it erases other bytes. -/
theorem agrees_of_erasesExactly (hc : c.Accepted) (hw : b.Within c.regions)
    (h : (zeroed c).ErasesExactly b) : b.region.Agrees c := by
  obtain ⟨e', hx, _, hcells⟩ := h
  obtain ⟨size, hpos, hk⟩ := hw.exists_eraseSize? hc
  by_cases hs : b.start - b.start % size + size ≤ c.size
  · obtain ⟨e'', hx', _, hcells'⟩ := eraseBlock_rounds hc (zeroed_emulates c) hw hpos hk hs
    have he : e'' = e' := congrArg Prod.snd (hx'.symm.trans hx)
    rw [he] at hcells'
    obtain ⟨hstart, hstop⟩ := (Set.Ico_eq_Ico_iff (.inl hw.start_lt_stop)).mp
      (erased_unique hcells hcells')
    have hsize : size = b.size := by
      unfold Block.stop at hstop
      omega
    subst hsize
    refine ⟨Nat.dvd_of_mod_eq_zero (hw.start_mod.symm.trans ?_), hk⟩
    have hle := Nat.mod_le b.start b.size
    omega
  · obtain ⟨e'', hx', _⟩ := eraseBlock_refuses hc (zeroed_emulates c) hw hpos hk (by omega)
    cases hx.symm.trans hx'

end Emulator

/-- Regions that an instruction tells apart are those of which each agrees with the chip. -/
theorem Chip.regular_iff (hc : c.Accepted) :
    c.Regular ↔ ∀ r ∈ c.regions, r.active = true → r.Agrees c := by
  constructor
  · intro hreg r hr hact
    have hw := hc.within hr hact (Region.blockCount_pos hact)
    exact ⟨hreg.aligned r hr hact, hw.eraseSize? hc hreg⟩
  · intro h
    refine ⟨fun r hr hact => (h r hr hact).aligned, ?_⟩
    intro r hr r' hr' hact hact' hf _
    have hsized := (h r hr hact).sized
    rw [hf, (h r' hr' hact').sized] at hsized
    exact (Option.some.inj hsized).symm

/-- On an accepted chip the blocks that are erased exactly, whatever the cells hold, are those of
the regions that agree with it; all blocks are, if and only if the chip is regular. -/
theorem Emulator.erasesExactly_iff (hc : c.Accepted) :
    (∀ r ∈ c.regions, r.active = true → ∀ i < r.blockCount,
      ((∀ e : Emulator, e.Emulates c → e.ErasesExactly ⟨r, i⟩) ↔ r.Agrees c)) ∧
    ((∀ r ∈ c.regions, r.active = true → ∀ i < r.blockCount, ∀ e : Emulator, e.Emulates c →
      e.ErasesExactly ⟨r, i⟩) ↔ c.Regular) := by
  have hblock : ∀ r ∈ c.regions, r.active = true → ∀ i < r.blockCount,
      ((∀ e : Emulator, e.Emulates c → e.ErasesExactly ⟨r, i⟩) ↔ r.Agrees c) := by
    intro r hr hact i hi
    have hw := hc.within hr hact hi
    constructor
    · intro h
      exact agrees_of_erasesExactly hc hw (h _ (zeroed_emulates c))
    · intro ha e he
      exact erasesExactly_of_agrees hc he hw ha
  refine ⟨hblock, ?_⟩
  rw [Chip.regular_iff hc]
  constructor
  · intro h r hr hact
    have hi := Region.blockCount_pos hact
    exact (hblock r hr hact 0 hi).mp (h r hr hact 0 hi)
  · intro h r hr hact i hi
    exact (hblock r hr hact i hi).mpr (h r hr hact)

/-- The last of the larger blocks of the small chip, behind narrow limits. -/
theorem Emulator.erasesExactly_iff_sample :
    sample.ErasesExactly ⟨⟨0, 8, 4, .eraseD8⟩, 3⟩ := by
  have hall := (erasesExactly_iff Chip.sample_accepted).2.mpr Chip.sample_regular
  exact hall _ (by decide) (by decide) 3 (by decide) sample sample_emulates

/-- A chip of two regions for one instruction: the first region lies between the multiples of its
block size, and the second has larger blocks. -/
def Chip.crooked : Chip :=
  { short with regions := [⟨2, 4, 1, .erase20⟩, ⟨16, 8, 2, .erase20⟩] }

/-- The chip is taken from a vendor file, and no block of it is erased as it is meant: the first is
erased two bytes too early, and of the others only one half is erased. -/
theorem Chip.crooked_erases_other_bytes :
    crooked.vendorDefinition.toChips = .ok [crooked] ∧
      ∀ r ∈ crooked.regions, r.active = true ∧ ∀ i < r.blockCount,
        ∃ e : Emulator, e.Emulates crooked ∧ ¬e.ErasesExactly ⟨r, i⟩ := by
  have hload : crooked.vendorDefinition.toChips = .ok [crooked] := by cbv
  have hc : crooked.Accepted := toChips_vendorDefinition.mp hload
  have hactive : ∀ r ∈ crooked.regions, r.active = true := by decide
  have hdisagree : ∀ r ∈ crooked.regions, ¬r.Agrees crooked := by
    have hfound : ∀ r ∈ crooked.regions, r.blockSize ∣ r.start →
        Emulator.eraseSize? crooked r.function ≠ some r.blockSize := by decide
    exact fun r hr ha => hfound r hr ha.aligned ha.sized
  refine ⟨hload, fun r hr => ⟨hactive r hr, fun i hi => ?_⟩⟩
  refine ⟨Emulator.zeroed crooked, Emulator.zeroed_emulates crooked, fun h => ?_⟩
  have hw := hc.within hr (hactive r hr) hi
  exact hdisagree r hr (Emulator.agrees_of_erasesExactly hc hw h)

end NorFlash
