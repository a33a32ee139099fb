import NorFlash.Proofs.Partition
import NorFlash.Proofs.Writing

namespace NorFlash

/-- What a comparison of the cells from `addr` on with `expected` has to say: that they agree, or
where they differ first and what stands there. -/
def Verdict.Right (cells : Bytes) (addr : Nat) (expected : Bytes) : Verdict → Prop
  | agrees => expected = cells.extract addr (addr + expected.size)
  | differs place wanted found => ∃ i < expected.size, place = addr + i ∧
      wanted = expected.byteAt i ∧ found = cells.byteAt place ∧ wanted ≠ found ∧
      ∀ j < i, expected.byteAt j = cells.byteAt (addr + j)

namespace Transfer

variable {page most start len : Nat}

theorem spans_pieces (hp : 0 < page) (hm : 0 < most) (hb : start + len ≤ addressSpace) :
    Chunk.Spans start (pieces page most start len) (start + len) := by
  obtain ⟨t, ht⟩ := exists_of? start len hp hm
  obtain ⟨rfl, hstop, _⟩ := of?_ok ht
  rw [pieces, ht, ← hstop]
  exact t.spans_chunksFrom (by omega) (by omega)

end Transfer

variable {cells found expected : Bytes} {addr : Nat}

/-- Where nothing differs the comparison agrees. -/
theorem Verdict.right_agrees (hsize : found.size = expected.size)
    (hfound : found = cells.extract addr (addr + expected.size))
    (h : Bytes.firstDifference? expected found = none) : agrees.Right cells addr expected :=
  (Bytes.eq_of_firstDifference?_none hsize.symm h).trans hfound

theorem Verdict.right_differs {i : Nat} (hin : addr + expected.size ≤ cells.size)
    (hfound : found = cells.extract addr (addr + expected.size))
    (h : Bytes.firstDifference? expected found = some i) :
    (differs (addr + i) (expected.byteAt i) (found.byteAt i)).Right cells addr expected := by
  have hbyte : ∀ j < expected.size, found.byteAt j = cells.byteAt (addr + j) := by
    intro j hj
    rw [hfound, Bytes.byteAt_extract hin (by omega)]
  obtain ⟨hi, _⟩ := Bytes.firstDifference?_lt h
  obtain ⟨hne, hbefore⟩ := Bytes.differenceFrom_some h
  refine ⟨i, hi, rfl, rfl, hbyte i hi, hne, ?_⟩
  intro j hj
  rw [← hbyte j (by omega)]
  exact hbefore j (Nat.zero_le j) hj

/-- The right verdict is agreement just if the cells are what is expected. -/
theorem Verdict.Right.agrees_iff {v : Verdict} (h : v.Right cells addr expected)
    (hin : addr + expected.size ≤ cells.size) :
    v = .agrees ↔ expected = cells.extract addr (addr + expected.size) := by
  cases v with
  | agrees => exact ⟨fun _ => h, fun _ => rfl⟩
  | differs place wanted found =>
    obtain ⟨i, hi, rfl, rfl, rfl, hne, _⟩ := h
    constructor
    · intro hv
      cases hv
    · intro heq
      have hbyte := Bytes.byteAt_extract hin (Nat.add_lt_add_left hi addr)
      rw [← heq] at hbyte
      exact absurd hbyte hne

/-- A comparison reads the range once and gives the right verdict. -/
theorem Programmer.Carries.verify {σ : Type} {p : Programmer σ} {view : σ → Emulator}
    {faultless : Prop} {s : σ} {c : Chip} (hp : p.Carries view faultless)
    (hs : (view s).cells.size = c.size) (hc : 0 < c.pageSize)
    (hin : addr + expected.size ≤ c.size) (hb : c.size ≤ addressSpace)
    (hm : faultless → 0 < (view s).maxRead) :
    Performs view faultless (p.verify c addr expected) s
      (CellOperation.reads c.pageSize (view s).maxRead addr expected.size)
      (fun v _ => 0 < (view s).maxRead ∧ v.Right (view s).cells addr expected) := by
  refine .bind_value (hp.progress _) fun s₁ hv₁ => ?_
  rw [← hv₁] at hs hm ⊢
  rw [← hs] at hin
  refine .bind_last (hp.readChunked hs hc (hs ▸ hin) hb hm) ?_
  intro found s₂ _ h
  obtain ⟨hmost, hfound⟩ := h
  have hsize : found.size = expected.size := by rw [hfound, Bytes.size_extract_add hin]
  cases hd : Bytes.firstDifference? expected found with
  | none => exact .pure ⟨hmost, Verdict.right_agrees hsize hfound hd⟩
  | some i =>
    have hi := (Bytes.firstDifference?_lt hd).1
    refine .bind_value (.word (by omega)) fun s₃ _ => ?_
    exact .pure ⟨hmost, Verdict.right_differs hin hfound hd⟩

namespace Emulator

variable {c : Chip} {e : Emulator} {addr len : Nat} {buffer expected : Bytes}

/-- Why a range is not read where reading needs a limit and a page. -/
def readRefusal (c : Chip) (e : Emulator) (addr len : Nat) : Error :=
  if c.holds addr len then if e.maxRead = 0 then .transferSizeUnspecified else .invalidArgument
  else .addressOutOfBounds

theorem of?_refused (h : e.maxRead = 0 ∨ c.pageSize = 0) :
    Transfer.of? addr len c.pageSize e.maxRead =
      .error (if e.maxRead = 0 then .transferSizeUnspecified else .invalidArgument) := by
  unfold Transfer.of?
  by_cases hm : e.maxRead = 0
  · simp [hm]
  · have hp : c.pageSize = 0 := by omega
    simp [hm, hp]

/-- Without a limit or a page a range is refused before anything is sent. -/
theorem readRange_refused (h : e.maxRead = 0 ∨ c.pageSize = 0) (addr : Nat) (buffer : Bytes)
    (log : List Exchange) : programmer.recorded.readRange c addr buffer (e, log) =
      (.error (.error (readRefusal c e addr buffer.size)), (e, log)) := by
  unfold readRefusal
  by_cases hin : c.holds addr buffer.size = true
  · have hcheck : programmer.recorded.checkRange c addr buffer.size (e, log) =
        (.ok (), (e, log)) := if_pos hin
    have hmost : programmer.recorded.maxRead (e, log) = e.maxRead := rfl
    unfold Programmer.readRange
    rw [Act.bind_ok hcheck, Act.bind_ok (Act.read_apply _ _), hmost, of?_refused h, if_pos hin]
    rfl
  · rw [if_neg hin]
    exact Act.bind_error (if_neg hin)

theorem verify_refused (h : e.maxRead = 0 ∨ c.pageSize = 0) (addr : Nat) (expected : Bytes)
    (log : List Exchange) : programmer.recorded.verify c addr expected (e, log) =
      (.error (.error (readRefusal c e addr expected.size)), (e, log)) := by
  have hread := readRange_refused h addr (Bytes.filled expected.size 0) log
  rw [Bytes.size_filled] at hread
  have htold : programmer.recorded.progress (.reading expected.size) (e, log) =
      (.ok (), (e, log)) := rfl
  unfold Programmer.verify
  rw [Act.bind_ok htold]
  exact Act.bind_error hread

/-- The cells are what they were, and the reads since then lie side by side over a range. -/
structure ReadOver (e : Emulator) (lo hi : Nat) (e' : Emulator) : Prop where
  cells : e'.cells = e.cells
  reads : ∃ ks, e'.journal.toList = e.journal.toList ++ ks.map (fun k => .read k.addr k.len) ∧
    Chunk.Spans lo ks hi ∧ ∀ k ∈ ks, 0 < k.len

theorem After.readOver {e' : Emulator} {page most : Nat} (hp : 0 < page) (hm : 0 < most)
    (hb : addr + len ≤ addressSpace) (h : e.After (CellOperation.reads page most addr len) e') :
    e.ReadOver addr (addr + len) e' := by
  constructor
  · apply Bytes.ext_byteAt h.size
    intro i _
    rw [h.content, CellOperation.effects_of_reads]
  · refine ⟨Transfer.pieces page most addr len, ?_, Transfer.spans_pieces hp hm hb, ?_⟩
    · rw [h.journal, CellOperation.reads, List.map_map]
      rfl
    · intro k hk
      exact (Transfer.piece_of_mem hb hk).pos

section Whole

variable (hs : e.cells.size = c.size) (hb : c.size ≤ addressSpace)
include hs hb

/-- A read of any length gives the cells of its range, whatever the buffer held before. -/
theorem readRange_eq (hp : 0 < c.pageSize) (hm : 0 < e.maxRead)
    (hin : addr + buffer.size ≤ c.size) :
    ∃ e', programmer.readRange c addr buffer e =
        (.ok (e.cells.extract addr (addr + buffer.size)), e') ∧
      e.ReadOver addr (addr + buffer.size) e' := by
  have hrun : Performs id True (programmer.readRange c addr buffer) e _ _ :=
    (programmer_carries True).readRange hs hp hin hb fun _ => hm
  obtain ⟨a, e', hx, ha, _, rfl⟩ := hrun.exists_ok trivial
  exact ⟨e', hx, ha.readOver hp hm (Nat.le_trans hin hb)⟩

theorem verify_eq (hp : 0 < c.pageSize) (hm : 0 < e.maxRead)
    (hin : addr + expected.size ≤ c.size) :
    ∃ v e', programmer.verify c addr expected e = (.ok v, e') ∧
      v.Right e.cells addr expected ∧ e.ReadOver addr (addr + expected.size) e' := by
  have hrun : Performs id True (programmer.verify c addr expected) e _ _ :=
    (programmer_carries True).verify hs hp hin hb fun _ => hm
  obtain ⟨v, e', hx, ha, _, hright⟩ := hrun.exists_ok trivial
  exact ⟨v, e', hx, hright, ha.readOver hp hm (Nat.le_trans hin hb)⟩

/-- A range is read as if by one plain read, whatever the page and the limit, and leaves the cells
alone; a comparison agrees just if the cells are what is expected, and gives the lowest place of a
difference otherwise. Without a page or a limit both are refused, even for no bytes at all, and
nothing is sent. -/
theorem reads_and_compares :
    (0 < c.pageSize → 0 < e.maxRead →
      (∀ addr buffer, addr + buffer.size ≤ c.size → ∃ e',
        programmer.readRange c addr buffer e =
          (.ok (e.cells.extract addr (addr + buffer.size)), e') ∧
        e.ReadOver addr (addr + buffer.size) e') ∧
      ∀ addr expected, addr + expected.size ≤ c.size → ∃ v e',
        programmer.verify c addr expected e = (.ok v, e') ∧ v.Right e.cells addr expected ∧
        (v = .agrees ↔ expected = e.cells.extract addr (addr + expected.size)) ∧
        e.ReadOver addr (addr + expected.size) e') ∧
    (e.maxRead = 0 ∨ c.pageSize = 0 → ∀ addr bytes log,
      programmer.recorded.readRange c addr bytes (e, log) =
        (.error (.error (readRefusal c e addr bytes.size)), (e, log)) ∧
      programmer.recorded.verify c addr bytes (e, log) =
        (.error (.error (readRefusal c e addr bytes.size)), (e, log))) := by
  refine ⟨fun hp hm => ⟨fun addr buffer hin => readRange_eq hs hb hp hm hin, ?_⟩, ?_⟩
  · intro addr expected hin
    obtain ⟨v, e', hx, hright, hover⟩ := verify_eq hs hb hp hm hin
    exact ⟨v, e', hx, hright, hright.agrees_iff (hs ▸ hin), hover⟩
  · intro h addr bytes log
    exact ⟨readRange_refused h addr bytes log, verify_refused h addr bytes log⟩

end Whole

/-- On the small chip thirteen bytes are read from a place inside a page; of four bytes that are
compared the third is the first to differ. -/
theorem reads_and_compares_sample :
    (∃ e', programmer.readRange Chip.sample 6 (Bytes.filled 13 0) sample =
      (.ok (sample.cells.extract 6 19), e') ∧ sample.ReadOver 6 19 e') ∧
    ∃ e', programmer.verify Chip.sample 6 (Bytes.ofList [0x5A, 0x5A, 0x5B, 0x5C]) sample =
      (.ok (.differs 8 0x5B 0x5A), e') ∧ sample.ReadOver 6 10 e' := by
  obtain ⟨hread, hverify⟩ := (reads_and_compares (c := Chip.sample) (e := sample)
    sample_emulates.size (by decide)).1 (by decide) (by decide)
  obtain ⟨v, e', hx, _, _, hover⟩ := hverify 6 (Bytes.ofList [0x5A, 0x5A, 0x5B, 0x5C]) (by decide)
  have hverdict : (programmer.verify Chip.sample 6 (Bytes.ofList [0x5A, 0x5A, 0x5B, 0x5C])
      sample).1 = .ok (.differs 8 0x5B 0x5A) := by decide +kernel
  rw [hx] at hverdict
  cases hverdict
  exact ⟨hread 6 (Bytes.filled 13 0) (by decide), e', hx, hover⟩

end Emulator
end NorFlash
