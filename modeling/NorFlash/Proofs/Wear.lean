import NorFlash.Proofs.Writing

namespace NorFlash

def Entry.isErase : Entry → Bool
  | .erase _ _ _ => true
  | _ => false

def Entry.ofBlock (b : Block) : Entry := .erase b.function.opcode b.start b.size

namespace Block

def Inside (start stop : Nat) (b : Block) : Prop := start ≤ b.start ∧ b.stop ≤ stop

/-- The block is not all in the range, or one of its bytes is not the new one yet. -/
def Outdated (cells data : Bytes) (start : Nat) (b : Block) : Prop :=
  ¬b.Inside start (start + data.size) ∨
    ∃ i < b.stop, b.start ≤ i ∧ cells.byteAt i ≠ data.byteAt (i - start)

instance (start stop : Nat) : DecidablePred (Inside start stop) := fun _ =>
  inferInstanceAs (Decidable (_ ∧ _))

instance (cells data : Bytes) (start : Nat) : DecidablePred (Outdated cells data start) := fun _ =>
  inferInstanceAs (Decidable (_ ∨ _))

end Block

/-- What was done from `e` to `e'` erases these blocks in this order, and programs only in them. -/
def Emulator.Wears (e e' : Emulator) (bs : List Block) : Prop :=
  ∃ entries, e'.journal.toList = e.journal.toList ++ entries ∧
    entries.filter Entry.isErase = bs.map Entry.ofBlock ∧
    ∀ addr len, .program addr len ∈ entries → ∃ b ∈ bs, b.start ≤ addr ∧ addr + len ≤ b.stop

variable {c : Chip} {e e' : Emulator} {start : Nat} {data : Bytes} {p plan : Plan} {b : Block}
  {op : CellOperation}

theorem Plan.Covers.inside_or_end {regions : List Region} {stop : Nat}
    (h : p.Covers regions start stop) (hb : b ∈ p.blocks) : b.Inside start stop ∨
      p.blocks.head? = some b ∨ p.blocks.getLast? = some b := by
  obtain ⟨a, ha, _, hfirst⟩ := h.first
  obtain ⟨z, hz, hlast, _⟩ := h.last
  rcases h.eq_first_or_after ha hb with rfl | hafter
  · exact .inr (.inl ha)
  · rcases h.eq_last_or_before hz hb with rfl | hbefore
    · exact .inr (.inr hz)
    · exact .inl ⟨by omega, by omega⟩

namespace Writable

variable (h : Writable c e start data p)
include h

theorem stays_iff (hb : b ∈ p.blocks) :
    b.stays e.cells data start = true ↔ ¬b.Outdated e.cells data start := by
  have hlt := (h.covers.within b hb).start_lt_stop
  constructor
  · intro hs
    rintro (hout | ⟨i, hhi, hlo, hne⟩)
    · simp only [Block.stays, Bool.and_eq_true, decide_eq_true_eq] at hs
      exact hout hs.1
    · have hgoal := h.goal_of_stays hs hb hlo hhi
      simp only [Block.stays, Bool.and_eq_true, decide_eq_true_eq] at hs
      rw [h.byteAt_goal, if_pos (by omega)] at hgoal
      exact hne hgoal.symm
  · intro hcurrent
    simp only [Block.Outdated, not_or, not_exists, not_and, Decidable.not_not] at hcurrent
    obtain ⟨hin, hequal⟩ := hcurrent
    have hblock := h.block_inside hb
    have hextract : e.cells.extract b.start b.stop =
        data.extract (b.start - start) (b.stop - start) := by
      unfold Block.Inside at hin
      have hsize : (e.cells.extract b.start b.stop).size = b.stop - b.start :=
        Bytes.size_extract_of_le hblock
      refine Bytes.ext_byteAt ?_ fun i hi => ?_
      · rw [hsize, Bytes.size_extract_of_le (by omega)]
        omega
      · rw [hsize] at hi
        have hplace : b.start - start + i = b.start + i - start := by omega
        rw [Bytes.byteAt_extract hblock (by omega), Bytes.byteAt_extract (by omega) (by omega),
          hequal _ (by omega) (by omega), hplace]
    rw [Block.stays, decide_eq_true hin.1, decide_eq_true hin.2, hextract, Bytes.same_self]
    rfl

theorem changed_eq (hr : 0 < e.maxRead) :
    p.changed e start data = p.blocks.filter fun b => b.Outdated e.cells data start := by
  rw [Plan.changed_of_readable hr]
  refine List.filter_congr fun b hb => ?_
  rw [Bool.eq_iff_iff, Bool.not_eq_true', ← Bool.not_eq_true, h.stays_iff hb, Decidable.not_not,
    decide_eq_true_eq]

/-- Where the cells hold the data already, only blocks that reach out of the range are outdated. -/
theorem changed_again (hr : 0 < e.maxRead) (hgoal : e.cells.overlay start data = e.cells) :
    p.changed e start data = p.blocks.filter fun b => ¬b.Inside start (start + data.size) := by
  rw [h.changed_eq hr]
  refine List.filter_congr fun b hb => ?_
  rw [decide_eq_decide]
  refine ⟨?_, .inl⟩
  rintro (hout | ⟨i, hhi, hlo, hne⟩) hin
  · exact hout hin
  · unfold Block.Inside at hin
    rw [← hgoal, h.byteAt_goal, if_pos (by omega)] at hne
    exact hne rfl

theorem exists_program (hop : op ∈ Strategy.wipeIfChanges.writes e start data p) :
    ∃ addr piece, op = .program addr piece ∧
      ∃ b ∈ p.changed e start data, b.start ≤ addr ∧ addr + piece.size ≤ b.stop := by
  obtain ⟨b, hb, hop⟩ := List.mem_flatMap.mp hop
  have hmem := (Plan.mem_changed hb).1
  obtain ⟨addr, piece, rfl, hlo, hhi⟩ :=
    CellOperation.exists_program (h.part_addressable hmem) hop
  rw [h.part_stop hmem] at hhi
  exact ⟨addr, piece, rfl, b, hb, hlo, hhi⟩

/-- The reads before and the programs after leave the erases of the blocks that change. -/
theorem wears (ha : e.After (Strategy.wipeIfChanges.script e start data p) e') :
    e.Wears e' (p.changed e start data) := by
  refine ⟨_, ha.journal, ?_, ?_⟩
  · have hreads : ∀ x ∈ (CellOperation.reads e.chip.pageSize e.maxRead 0 e.chip.size).map
        CellOperation.entry, ¬x.isErase = true := by
      intro x hx
      obtain ⟨op, hop, rfl⟩ := List.mem_map.mp hx
      obtain ⟨addr, len, rfl⟩ := CellOperation.mem_reads hop
      exact nofun
    have hwrites : ∀ x ∈ (Strategy.wipeIfChanges.writes e start data p).map CellOperation.entry,
        ¬x.isErase = true := by
      intro x hx
      obtain ⟨op, hop, rfl⟩ := List.mem_map.mp hx
      obtain ⟨addr, piece, rfl, _⟩ := h.exists_program hop
      exact nofun
    have herases : ∀ x ∈ (p.changed e start data).map Entry.ofBlock, x.isErase = true := by
      intro x hx
      obtain ⟨b, _, rfl⟩ := List.mem_map.mp hx
      rfl
    rw [Strategy.script, Strategy.wipes, List.map_append, List.map_append, List.filter_append,
      List.filter_append, List.filter_eq_nil_iff.mpr hreads, List.filter_eq_nil_iff.mpr hwrites,
      List.nil_append, List.append_nil, List.map_map]
    exact List.filter_eq_self.mpr herases
  · intro addr len hmem
    obtain ⟨op, hop, hentry⟩ := List.mem_map.mp hmem
    rcases List.mem_append.mp hop with hop | hop
    · rcases Strategy.wipes_wipe hop with ⟨a, n, rfl⟩ | ⟨b, _, rfl⟩ <;> cases hentry
    · obtain ⟨a, piece, rfl, hin⟩ := h.exists_program hop
      cases hentry
      exact hin

theorem cells_eq (hr : 0 < e.maxRead) (hw : 0 < e.maxWrite)
    (ha : e.After (Strategy.wipeIfChanges.script e start data p) e') :
    e'.cells = e.cells.overlay start data := by
  refine Bytes.ext_byteAt (ha.size.trans (Bytes.size_overlay h.data_fits).symm) fun i _ => ?_
  exact (congrFun ha.content i).trans (h.effects_changes hr hw i)

end Writable

namespace Emulator

theorem wipeIfChanges_run (h : Writable c e start data plan)
    (hplan : Plan.make c.regions start data.size false = .ok plan) (hread : 0 < e.maxRead)
    (hwrite : 0 < e.maxWrite) :
    ∃ e', programmer.write c .wipeIfChanges start data e =
        (.ok (Strategy.wipeIfChanges.stats e start data plan), e') ∧
      e.After (Strategy.wipeIfChanges.script e start data plan) e' := by
  have hrun : Performs id True (programmer.write c .wipeIfChanges start data) e _ _ :=
    (programmer_carries True).write_counts h hplan (fun _ _ => hread) (fun _ => hwrite)
  obtain ⟨stats, e', hx, ha, rfl⟩ := hrun.exists_ok trivial
  exact ⟨e', hx, ha⟩

/-- A write that erases only what changes erases the outdated blocks and programs only in them.
Written once more the same leaves the cells alone and erases the blocks that reach out of the range,
the first and the last of the plan at most; where the plan ends with the range there are none. -/
theorem wipeIfChanges_wears (hc : c.Accepted) (hr : c.Regular) (he : e.Emulates c)
    (hread : 0 < e.maxRead) (hwrite : 0 < e.maxWrite) (hin : start + data.size ≤ c.size)
    (hplan : Plan.make c.regions start data.size false = .ok plan) :
    ∃ stats e₁ again e₂,
      programmer.write c .wipeIfChanges start data e = (.ok stats, e₁) ∧
      plan.blocks.Nodup ∧
      e.Wears e₁ (plan.blocks.filter fun b => b.Outdated e.cells data start) ∧
      programmer.write c .wipeIfChanges start data e₁ = (.ok again, e₂) ∧
      e₂.cells = e₁.cells ∧
      e₁.Wears e₂ (plan.blocks.filter fun b => ¬b.Inside start (start + data.size)) ∧
      (∀ b ∈ plan.blocks, ¬b.Inside start (start + data.size) →
        plan.blocks.head? = some b ∨ plan.blocks.getLast? = some b) ∧
      (plan.start = start → plan.stop = start + data.size →
        e₁.Wears e₂ [] ∧ again.modified = false) := by
  have h : Writable c e start data plan := he.writable hc hr hin hplan
  obtain ⟨e₁, hx₁, ha₁⟩ := wipeIfChanges_run h hplan hread hwrite
  have h₁ : Writable c e₁ start data plan := (he.after ha₁).writable hc hr hin hplan
  have hread₁ : 0 < e₁.maxRead := by rwa [ha₁.maxRead]
  have hwrite₁ : 0 < e₁.maxWrite := by rwa [ha₁.maxWrite]
  obtain ⟨e₂, hx₂, ha₂⟩ := wipeIfChanges_run h₁ hplan hread₁ hwrite₁
  -- the second write decides by cells that hold the data already
  have hgoal : e₁.cells.overlay start data = e₁.cells := by
    rw [h.cells_eq hread hwrite ha₁, Bytes.overlay_overlay h.data_fits]
  have hagain := h₁.changed_again hread₁ hgoal
  have hwears := h.wears ha₁
  have hwears₁ := h₁.wears ha₂
  rw [h.changed_eq hread] at hwears
  rw [hagain] at hwears₁
  refine ⟨_, e₁, _, e₂, hx₁, h.covers.nodup, hwears, hx₂,
    (h₁.cells_eq hread₁ hwrite₁ ha₂).trans hgoal, hwears₁,
    fun b hb hout => (h.covers.inside_or_end hb).resolve_left hout, ?_⟩
  intro hstart hstop
  have hnone : (plan.blocks.filter fun b => ¬b.Inside start (start + data.size)) = [] := by
    refine List.filter_eq_nil_iff.mpr fun b hb => ?_
    have hlo := h.covers.start_le_of_mem hb
    have hhi := h.covers.stop_le_of_mem hb
    rw [hstart] at hlo
    rw [hstop] at hhi
    have hinside : b.Inside start (start + data.size) := ⟨hlo, hhi⟩
    simp [hinside]
  rw [hnone] at hwears₁ hagain
  refine ⟨hwears₁, ?_⟩
  rw [Strategy.stats, hagain]
  rfl

/-- Of the three blocks of the plan the one in the middle is left alone by the second write. -/
theorem wipeIfChanges_wears_sample :
    ∃ stats e₁ again e₂,
      programmer.write Chip.sample .wipeIfChanges 6 (Bytes.filled 13 0x0F) sample =
        (.ok stats, e₁) ∧
      programmer.write Chip.sample .wipeIfChanges 6 (Bytes.filled 13 0x0F) e₁ = (.ok again, e₂) ∧
      e₂.cells = e₁.cells ∧
      e₁.Wears e₂ [⟨⟨0, 4, 8, .erase20⟩, 1⟩, ⟨⟨0, 4, 8, .erase20⟩, 4⟩] := by
  have hin : 6 + (Bytes.filled 13 0x0F).size ≤ Chip.sample.size := by decide
  obtain ⟨stats, e₁, again, e₂, hfirst, _, _, hsecond, hcells, hwears, _⟩ :=
    wipeIfChanges_wears Chip.sample_accepted Chip.sample_regular sample_emulates (by decide)
      (by decide) hin Chip.sample_plan
  exact ⟨stats, e₁, again, e₂, hfirst, hsecond, hcells, hwears⟩

end Emulator
end NorFlash
