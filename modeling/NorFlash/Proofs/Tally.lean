import NorFlash.Proofs.Refusal
import NorFlash.Proofs.Reports

namespace NorFlash

/-- The number of erases, and the bytes erased and programmed. -/
@[ext]
structure Tally where
  erases : Nat := 0
  erased : Nat := 0
  programmed : Nat := 0

def Entry.tally : Entry → Tally
  | .read _ _ => {}
  | .program _ len => { programmed := len }
  | .erase _ _ len => { erases := 1, erased := len }

def WriteStats.tally (stats : WriteStats) : Tally := ⟨stats.erases, stats.erased, stats.written⟩

namespace Tally

def add (t u : Tally) : Tally :=
  ⟨t.erases + u.erases, t.erased + u.erased, t.programmed + u.programmed⟩

/-- What some entries of a journal come to. -/
def ofEntries : List Entry → Tally
  | [] => {}
  | x :: xs => x.tally.add (ofEntries xs)

/-- What some operations come to once they are in the journal. -/
def ofOperations (ops : List CellOperation) : Tally := ofEntries (ops.map CellOperation.entry)

theorem add_assoc (t u v : Tally) : (t.add u).add v = t.add (u.add v) := by
  ext <;> exact Nat.add_assoc _ _ _

@[simp] theorem none_add (t : Tally) : add {} t = t := by
  ext <;> exact Nat.zero_add _

theorem ofOperations_cons (op : CellOperation) (ops : List CellOperation) :
    ofOperations (op :: ops) = op.entry.tally.add (ofOperations ops) := rfl

theorem ofOperations_append (ops ops' : List CellOperation) :
    ofOperations (ops ++ ops') = (ofOperations ops).add (ofOperations ops') := by
  induction ops with
  | nil => exact (none_add _).symm
  | cons op ops ih => rw [List.cons_append, ofOperations_cons, ih, ofOperations_cons, add_assoc]

theorem ofOperations_reads {ops : List CellOperation}
    (h : ∀ op ∈ ops, ∃ addr len, op = .read addr len) : ofOperations ops = {} := by
  induction ops with
  | nil => rfl
  | cons op ops ih =>
    obtain ⟨addr, len, rfl⟩ := h op List.mem_cons_self
    rw [ofOperations_cons, ih fun op hop => h op (List.mem_cons_of_mem _ hop)]
    rfl

theorem ofOperations_blocks (bs : List Block) :
    ofOperations (bs.map .ofBlock) = ⟨bs.length, total (bs.map Block.size), 0⟩ := by
  induction bs with
  | nil => rfl
  | cons b bs ih =>
    rw [List.map_cons, ofOperations_cons, ih, List.length_cons, Nat.add_comm bs.length]
    rfl

/-- Programs in a row come to the bytes of all of them. -/
theorem ofOperations_programs (data : Bytes) (ks : List Chunk)
    (h : ∀ k ∈ ks, k.offset + k.len ≤ data.size) :
    ofOperations (ks.map fun k => .program k.addr (data.extract k.offset (k.offset + k.len))) =
      { programmed := total (ks.map Chunk.len) } := by
  induction ks with
  | nil => rfl
  | cons k ks ih =>
    have hsize := Bytes.size_extract_add (h k List.mem_cons_self)
    rw [List.map_cons, ofOperations_cons, ih fun k hk => h k (List.mem_cons_of_mem _ hk),
      CellOperation.entry, hsize]
    rfl

end Tally

theorem Transfer.total_pieces {page most : Nat} (start len : Nat) (hp : 0 < page) (hm : 0 < most) :
    total ((pieces page most start len).map Chunk.len) = len := by
  obtain ⟨t, ht⟩ := exists_of? start len hp hm
  obtain ⟨hstart, hstop, _⟩ := of?_ok ht
  rw [pieces, ht]
  exact (t.total_chunksFrom t.start).trans (by omega)

/-- To program a range is to program each of its bytes once. -/
theorem CellOperation.tally_programs {page most start : Nat} {data : Bytes} (hp : 0 < page)
    (hm : 0 < most) (hb : start + data.size ≤ addressSpace) :
    Tally.ofOperations (programs page most start data) = { programmed := data.size } := by
  rw [programs, Tally.ofOperations_programs data _ fun k hk => (Transfer.piece_of_mem hb hk).inside,
    Transfer.total_pieces start data.size hp hm]

variable {c : Chip} {e e' : Emulator} {start : Nat} {data : Bytes}
  {plan : Plan} {strategy : Strategy}

namespace Writable

variable (h : Writable c e start data plan)
include h

/-- To program the parts of some blocks is to program each of their bytes once. -/
theorem tally_parts (hm : 0 < e.maxWrite) {bs : List Block} (hbs : ∀ b ∈ bs, b ∈ plan.blocks) :
    Tally.ofOperations (bs.flatMap fun b => CellOperation.programs e.chip.pageSize e.maxWrite
      b.start ((e.cells.overlay start data).extract b.start b.stop)) =
        { programmed := total (bs.map Block.size) } := by
  induction bs with
  | nil => rfl
  | cons b bs ih =>
    have hb := hbs b List.mem_cons_self
    have hsize : ((e.cells.overlay start data).extract b.start b.stop).size = b.size :=
      Nat.add_left_cancel (h.part_stop hb)
    rw [List.flatMap_cons, Tally.ofOperations_append,
      ih fun b' hb' => hbs b' (List.mem_cons_of_mem b hb'),
      CellOperation.tally_programs h.page_pos hm (h.part_addressable hb), hsize]
    rfl

/-- What a write performs comes to what it says of itself, unless it erases and cannot program. -/
theorem tally_script (hm : 0 < e.maxWrite ∨ strategy.erases e start data plan = []) :
    Tally.ofOperations (strategy.script e start data plan) =
      (strategy.stats e start data plan).tally := by
  rw [Strategy.script, Tally.ofOperations_append]
  cases strategy with
  | wipeByBiggestErases =>
    have hmost : 0 < e.maxWrite := by
      refine hm.resolve_right fun hnone => ?_
      obtain ⟨b, hb, _⟩ := h.covers.first
      rw [Strategy.erases] at hnone
      simp [hnone] at hb
    rw [Strategy.wipes, Strategy.writes, Tally.ofOperations_blocks,
      CellOperation.tally_programs h.page_pos hmost h.data_addressable]
    simp [Tally.add, Strategy.stats, WriteStats.tally]
  | wipeIfChanges =>
    have hwrites : Tally.ofOperations (Strategy.wipeIfChanges.writes e start data plan) =
        { programmed := total ((plan.changed e start data).map Block.size) } := by
      rw [Strategy.writes]
      rcases hm with hm | hnone
      · exact h.tally_parts hm fun _ hb => (Plan.mem_changed hb).1
      · rw [Strategy.erases] at hnone
        rw [hnone]
        rfl
    rw [hwrites, Strategy.wipes, Tally.ofOperations_append,
      Tally.ofOperations_reads fun _ => CellOperation.mem_reads, Tally.none_add,
      Tally.ofOperations_blocks]
    simp [Tally.add, Strategy.stats, WriteStats.tally]

end Writable

namespace Emulator

/-- A planned write that ends well has come to what it says. -/
theorem write_amounts (h : Writable c e start data plan)
    (hplan : Plan.make c.regions start data.size false = .ok plan) {stats : WriteStats}
    (hx : programmer.write c strategy start data e = (.ok stats, e')) :
    ∃ entries, e'.journal.toList = e.journal.toList ++ entries ∧
      Tally.ofEntries entries = stats.tally := by
  have hrun : Performs id False (programmer.write c strategy start data) e _ _ :=
    (programmer_carries False).write_counts h hplan (fun hf => hf.elim) (fun hf => hf.elim)
  have hlimit : 0 < e.maxWrite ∨ strategy.erases e start data plan = [] := by
    rcases Nat.eq_zero_or_pos e.maxWrite with hmute | hpos
    · refine .inr (Decidable.byContradiction fun herases => ?_)
      obtain ⟨_, hfails, _⟩ := (programmer_carries True).write_fails hmute h hplan herases
      rw [hx] at hfails
      cases hfails
    · exact .inl hpos
  cases hrun with
  | stopped hstop =>
    rw [hx] at hstop
    cases hstop
  | ended hend ha hstats =>
    rw [hx] at hend
    cases hend
    subst hstats
    exact ⟨_, ha.journal, h.tally_script hlimit⟩

/-- A write that ends well reports what it erases and what it programs, counted up to what was
announced, and at the very end that it is complete; the numbers reported, those it gives and those
in the journal are the same, and with the blocks skipped they make up the plan. A write that ends
badly never reports that it is complete. -/
theorem write_tallies (hc : c.Accepted) (hr : c.Regular) (he : e.Emulates c) (hdata : 0 < data.size)
    {r : Except Stop WriteStats} (hx : programmer.write c strategy start data e = (r, e')) :
    ∃ told, programmer.reported.write c strategy start data (e, []) = (r, e', told) ∧ match r with
      | .ok stats => ∃ before entries plan, told = before ++ [.complete stats] ∧
          (∀ x ∈ before, x.isComplete = false) ∧ stats.ToldBy before ∧
          e'.journal.toList = e.journal.toList ++ entries ∧
          Tally.ofEntries entries = stats.tally ∧
          Plan.make c.regions start data.size false = .ok plan ∧
          stats.erases + stats.skipped = plan.blocks.length
      | .error _ => ∀ x ∈ told, x.isComplete = false := by
  obtain ⟨hresult, hstate⟩ := programmer.reported_parallel.write c strategy start data (e, []) e rfl
  obtain ⟨told, hlog, htold⟩ := programmer.write_tells c strategy start data hdata e []
  rw [List.nil_append] at hlog
  rw [hx] at hresult hstate
  refine ⟨told, Prod.ext hresult (Prod.ext hstate hlog), ?_⟩
  rw [hresult] at htold
  cases r with
  | error err => exact htold
  | ok stats =>
    obtain ⟨before, hend, hquiet, hstory, plan, hplan, hcount⟩ := htold
    have hin : start + data.size ≤ c.size := by
      by_contra hout
      have hfail : programmer.write c strategy start data e =
          (.error (.error .addressOutOfBounds), e) :=
        Act.bind_error (if_neg (by simpa [Chip.holds] using hout))
      rw [hx] at hfail
      cases hfail
    obtain ⟨entries, hjournal, htally⟩ :=
      write_amounts (he.writable hc hr hin hplan) hplan hx
    exact ⟨before, entries, plan, hend, hquiet, hstory, hjournal, htally, hplan, hcount⟩

/-- On the small chip the three blocks of a plan are erased and programmed again, sixteen bytes in
all. -/
theorem write_tallies_sample :
    ∃ e' before entries, programmer.reported.write Chip.sample .wipeIfChanges 6
        (Bytes.filled 13 0x0F) (sample, []) =
          (.ok ⟨3, 0, 16, 16⟩, e', before ++ [.complete ⟨3, 0, 16, 16⟩]) ∧
      WriteStats.ToldBy ⟨3, 0, 16, 16⟩ before ∧
      e'.journal.toList = sample.journal.toList ++ entries ∧
      Tally.ofEntries entries = ⟨3, 16, 16⟩ := by
  have hstats : (programmer.write Chip.sample .wipeIfChanges 6 (Bytes.filled 13 0x0F) sample).1 =
      .ok ⟨3, 0, 16, 16⟩ := by decide +kernel
  obtain ⟨told, hrun, before, entries, plan, rfl, _, hstory, hjournal, htally, _⟩ :=
    write_tallies Chip.sample_accepted Chip.sample_regular sample_emulates
      (by rw [Bytes.size_filled]; decide) (Prod.ext hstats rfl)
  exact ⟨_, before, entries, hrun, hstory, hjournal, htally⟩

end Emulator
end NorFlash
