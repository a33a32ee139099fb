import NorFlash.Proofs.Discipline

namespace NorFlash

/-- A chip that is divided into pages. -/
structure Chip.Paged (c : Chip) : Prop where
  size_pos : 0 < c.size
  page_pos : 0 < c.pageSize
  whole : c.pageSize ∣ c.size

namespace Command

variable {c : Command}

theorem not_changes_writeDisable (h : c.opcode = Opcode.writeDisable) : ¬c.Changes := by
  have herase (f : EraseFunction) : f.opcode ≠ Opcode.writeDisable := by cases f <;> decide
  rw [← h] at herase
  exact not_changes (by rw [h]; decide) herase

/-- The instructions that only tell something. -/
def telling : List UInt8 :=
  [Opcode.readId, Opcode.readManufacturer, Opcode.readSignature, Opcode.readStatus,
    Opcode.readData]

theorem ne_of_telling {o : UInt8} (h : c.opcode ∈ telling) (ho : o ∉ telling) : c.opcode ≠ o := by
  intro he
  rw [he] at h
  exact ho h

theorem not_changes_of_telling (h : c.opcode ∈ telling) : ¬c.Changes := by
  have herase (f : EraseFunction) : f.opcode ∉ telling := by cases f <;> decide
  exact not_changes (ne_of_telling h (by decide)) fun f => (ne_of_telling h (herase f)).symm

/-- The command is one of a chip's command set. -/
def Known (c : Command) : Prop :=
  c.opcode ∈ telling ∨ c.opcode = Opcode.writeEnable ∨ c.opcode = Opcode.writeDisable ∨ c.Changes

end Command

namespace Exchange

/-- The latch is clear afterwards: a program, an erase or a write disable was carried out. -/
def Disarms (x : Exchange) : Prop :=
  x.Done ∧ (x.command.Changes ∨ x.command.opcode = Opcode.writeDisable)

theorem Enables.not_disarms {x : Exchange} (h : x.Enables) : ¬x.Disarms := by
  intro ⟨_, hx⟩
  rcases hx with hx | hx
  · exact Command.not_changes_writeEnable h.1 hx
  · rw [h.1] at hx
    simp [Opcode.writeEnable, Opcode.writeDisable] at hx

end Exchange

/-- There was a write enable, and nothing after it cleared the latch. -/
def Armed (log : List Exchange) : Prop :=
  ∃ before w after, log = before ++ w :: after ∧ w.Enables ∧ ∀ x ∈ after, ¬x.Disarms

/-- Of two commands that need the latch and were carried out, the second has a write enable behind
the first. -/
def Unshared (log : List Exchange) : Prop :=
  ∀ before x between y after, log = before ++ x :: (between ++ y :: after) →
    x.Done → x.command.NeedsLatch → y.Done → y.command.NeedsLatch → ∃ w ∈ between, w.Enables

theorem not_armed_nil : ¬Armed [] := by
  intro ⟨before, w, after, h, _⟩
  simp at h

theorem armed_concat {log : List Exchange} {x : Exchange} :
    Armed (log ++ [x]) ↔ x.Enables ∨ Armed log ∧ ¬x.Disarms := by
  constructor
  · intro ⟨before, w, after, h, hw, hafter⟩
    rcases split_append h with ⟨rest, hlog, rfl⟩ | ⟨rest, _, hx⟩
    · right
      constructor
      · exact ⟨before, w, rest, hlog, hw, fun y hy => hafter y (List.mem_append_left _ hy)⟩
      · exact hafter x (by simp)
    · cases rest with
      | nil =>
        simp only [List.nil_append, List.cons.injEq] at hx
        exact .inl (hx.1 ▸ hw)
      | cons y rest => simp at hx
  · rintro (hx | ⟨⟨before, w, after, rfl, hw, hafter⟩, hx⟩)
    · exact ⟨log, x, [], rfl, hx, by simp⟩
    · refine ⟨before, w, after ++ [x], by simp, hw, ?_⟩
      intro y hy
      rcases List.mem_append.mp hy with hy | hy
      · exact hafter y hy
      · rw [List.mem_singleton.mp hy]
        exact hx

/-- The write enable stands behind anything that clears the latch. -/
theorem Armed.enables_after {before between : List Exchange} {x : Exchange}
    (h : Armed (before ++ x :: between)) (hx : x.Disarms) : ∃ w ∈ between, w.Enables := by
  obtain ⟨front, w, after, he, hw, hafter⟩ := h
  rcases split_append he with ⟨rest, _, rfl⟩ | ⟨rest, _, hrest⟩
  · exact absurd hx (hafter x (by simp))
  · cases rest with
    | nil =>
      simp only [List.nil_append, List.cons.injEq] at hrest
      exact absurd hx (hrest.1 ▸ hw.not_disarms)
    | cons y rest =>
      simp only [List.cons_append, List.cons.injEq] at hrest
      exact ⟨w, by simp [hrest.2], hw⟩

namespace Emulator

/-- The bytes of a program at `addr` that fall on address `i`, in their order: what does not fit
into the page comes round to its front. -/
def fallingOn (page addr : Nat) (data : Bytes) (i : Nat) : List UInt8 :=
  ((List.range data.size).filter fun k =>
    i / page = addr / page ∧ i % page = (addr + k) % page).map data.byteAt

section Program

variable {page addr k i : Nat} {data cells : Bytes}

theorem programPlace_eq : programPlace page addr k = page * (addr / page) + (addr + k) % page := by
  have := Nat.div_add_mod addr page
  rw [programPlace, Nat.mod_add_mod]
  omega

theorem programPlace_eq_iff (hpage : 0 < page) :
    i = programPlace page addr k ↔ i / page = addr / page ∧ i % page = (addr + k) % page := by
  rw [programPlace_eq]
  have hlt := Nat.mod_lt (addr + k) hpage
  constructor
  · intro h
    subst h
    rw [Nat.mul_add_div hpage, Nat.div_eq_of_lt hlt, Nat.mul_add_mod, Nat.mod_eq_of_lt hlt]
    exact ⟨rfl, rfl⟩
  · intro ⟨hdiv, hmod⟩
    rw [← hdiv, ← hmod, Nat.div_add_mod]

/-- The page that holds an address ends inside whole pages. -/
theorem page_stop_le {size : Nat} (hsize : page ∣ size) (h : addr < size) :
    page * (addr / page) + page ≤ size := by
  obtain ⟨n, rfl⟩ := hsize
  rw [← Nat.mul_succ]
  exact Nat.mul_le_mul_left page (Nat.div_lt_of_lt_mul h)

theorem programStop_le {size : Nat} (hsize : page ∣ size) (h : addr < size) (len : Nat) :
    programStop page addr len ≤ size := by
  have hstop := page_stop_le hsize h
  have haddr := Nat.div_add_mod addr page
  unfold programStop
  split <;> omega

theorem byteAt_programCells_suffix (hpage : 0 < page)
    (hin : page * (addr / page) + page ≤ cells.size) {n : Nat} (hn : n ≤ data.size) (i : Nat) :
    (programCells page addr data n cells).byteAt i =
      (((List.range' (data.size - n) n).filter fun k =>
        i / page = addr / page ∧ i % page = (addr + k) % page).map data.byteAt).foldl (· &&& ·)
          (cells.byteAt i) := by
  induction n generalizing cells with
  | zero => simp [programCells]
  | succ n ih =>
    have hplace : programPlace page addr (data.size - (n + 1)) < cells.size := by
      have := Nat.mod_lt (addr + (data.size - (n + 1))) hpage
      rw [programPlace_eq]
      omega
    have hnext : data.size - (n + 1) + 1 = data.size - n := by omega
    rw [programCells, ih (by simpa using hin) (by omega), List.range'_succ, hnext,
      Bytes.byteAt_modifyAt _ hplace]
    by_cases hi : i = programPlace page addr (data.size - (n + 1))
    · rw [if_pos hi, List.filter_cons_of_pos (by simpa using (programPlace_eq_iff hpage).mp hi),
        ← hi]
      rfl
    · rw [if_neg hi, List.filter_cons_of_neg]
      simpa using mt (programPlace_eq_iff hpage).mpr hi

/-- A program of any length: each byte is the old one with what falls on it. -/
theorem byteAt_programCells_wrapped (hpage : 0 < page) (hsize : page ∣ cells.size)
    (h : addr < cells.size) (i : Nat) :
    (programCells page addr data data.size cells).byteAt i =
      (fallingOn page addr data i).foldl (· &&& ·) (cells.byteAt i) := by
  rw [byteAt_programCells_suffix hpage (page_stop_le hsize h) (Nat.le_refl _), Nat.sub_self,
    ← List.range_eq_range']
  rfl

theorem fallingOn_of_ne (h : i / page ≠ addr / page) : fallingOn page addr data i = [] := by
  simp [fallingOn, h]

end Program

/-- What is asked of a command that is carried out. -/
structure Accepts (e : Emulator) (c : Command) : Prop where
  known : c.Known
  read : c.opcode = Opcode.readData → c.address.getD 0 + c.buffer.size ≤ e.cells.size
  program : c.opcode = Opcode.pageProgram → e.latch = true ∧ c.address.getD 0 < e.cells.size
  erase : ∀ f : EraseFunction, c.opcode = f.opcode →
    (f.needsWriteEnable = true → e.latch = true) ∧ ∃ size, eraseSize? e.chip f = some size ∧
      c.address.getD 0 - c.address.getD 0 % size + size ≤ e.cells.size

/-- A program or an erase that is carried out. -/
inductive Changed (e : Emulator) (c : Command) : Emulator → Prop where
  | programmed (opcode : c.opcode = Opcode.pageProgram) (latch : e.latch = true)
      (inside : c.address.getD 0 < e.cells.size) :
      Changed e c (e.settle (programCells e.chip.pageSize (c.address.getD 0) c.data c.data.size)
        (.program (c.address.getD 0) c.data.size))
  | erased {f : EraseFunction} {size start : Nat} (opcode : c.opcode = f.opcode)
      (latch : f.needsWriteEnable = true → e.latch = true)
      (known : eraseSize? e.chip f = some size) (pos : 0 < size)
      (aligned : start = c.address.getD 0 - c.address.getD 0 % size)
      (inside : start + size ≤ e.cells.size) :
      Changed e c
        (e.settle (fun cells => cells.fill start size erased) (.erase f.opcode start size))

/-- What a command comes to. None crashes on a chip whose pages fill it. -/
inductive Executed (e : Emulator) (c : Command) : Except Stop Bytes → Emulator → Prop where
  | refused (err : Error) (bad : ¬e.Accepts c) : Executed e c (.error (.error err)) e
  | crashed (part : ¬(e.chip.Paged ∧ e.cells.size = e.chip.size)) :
      Executed e c (.error .crashed) e
  /-- Something is told of the chip. -/
  | told {reply : Bytes} {e' : Emulator} (opcode : c.opcode ∈ Command.telling)
      (inside : c.opcode = Opcode.readData → c.address.getD 0 + c.buffer.size ≤ e.cells.size)
      (chip : e'.chip = e.chip) (cells : e'.cells = e.cells) (latch : e'.latch = e.latch) :
      Executed e c (.ok reply) e'
  | enabled (opcode : c.opcode = Opcode.writeEnable) :
      Executed e c (.ok ByteArray.empty) { e with latch := true }
  | disabled (opcode : c.opcode = Opcode.writeDisable) :
      Executed e c (.ok ByteArray.empty) { e with latch := false }
  | changed {e' : Emulator} (change : Changed e c e') : Executed e c (.ok ByteArray.empty) e'

section Command

variable {e : Emulator} {c : Command} {chip : Chip}

theorem eraseSize?_pos {f : EraseFunction} {size : Nat} (hc : 0 < chip.size)
    (h : eraseSize? chip f = some size) : 0 < size := by
  unfold eraseSize? at h
  split at h
  case isTrue =>
    cases h
    exact hc
  case isFalse =>
    obtain ⟨r, hfind, rfl⟩ := Option.map_eq_some_iff.mp h
    have hactive := (List.mem_filter.mp (List.mem_of_find?_eq_some hfind)).2
    simp only [Region.active, Bool.and_eq_true, bne_iff_ne] at hactive
    exact Nat.pos_of_ne_zero hactive.1

theorem Accepts.of_not_changes (known : c.Known) (hc : ¬c.Changes)
    (read : c.opcode = Opcode.readData → c.address.getD 0 + c.buffer.size ≤ e.cells.size) :
    e.Accepts c where
  known := known
  read := read
  program ho := absurd (.inl ho) hc
  erase f ho := absurd (.inr ⟨f, ho⟩) hc

theorem executed_program (h : c.opcode = Opcode.pageProgram) :
    Executed e c (program (c.address.getD 0) c.data e).1
      (program (c.address.getD 0) c.data e).2 := by
  unfold program
  dsimp only
  split
  case isTrue hlatch =>
    apply Executed.refused
    intro ha
    simp [(ha.program h).1] at hlatch
  case isFalse hlatch =>
    split
    case isTrue hout =>
      apply Executed.refused
      intro ha
      exact absurd (ha.program h).2 (Nat.not_lt.mpr hout)
    case isFalse hin =>
      have hinside : c.address.getD 0 < e.cells.size := Nat.lt_of_not_le hin
      split
      case isTrue hout =>
        refine .crashed fun ⟨hc, hs⟩ => ?_
        simp only [Bool.or_eq_true, beq_iff_eq, decide_eq_true_eq] at hout
        have hpage := hc.page_pos
        have hstop := programStop_le (hs ▸ hc.whole) hinside c.data.size
        omega
      case isFalse => exact .changed (.programmed h (by simpa using hlatch) hinside)

theorem executed_erase {f : EraseFunction} (h : c.opcode = f.opcode) :
    Executed e c (erase f (c.address.getD 0) e).1 (erase f (c.address.getD 0) e).2 := by
  unfold erase
  split
  case isTrue hlatch =>
    apply Executed.refused
    intro ha
    simp only [Bool.and_eq_true, Bool.not_eq_true'] at hlatch
    simp [(ha.erase f h).1 hlatch.1] at hlatch
  case isFalse hlatch =>
    split
    case h_1 hunknown =>
      apply Executed.refused
      intro ha
      obtain ⟨size, hsize, _⟩ := (ha.erase f h).2
      simp [hunknown] at hsize
    case h_2 size hknown =>
      unfold eraseCells
      dsimp only
      split
      case isTrue hzero =>
        refine .crashed fun ⟨hc, _⟩ => ?_
        exact absurd (beq_iff_eq.mp hzero) (Nat.ne_of_gt (eraseSize?_pos hc.size_pos hknown))
      case isFalse hne =>
        have hpos : 0 < size := Nat.pos_of_ne_zero (by simpa using hne)
        split
        case isTrue hout =>
          apply Executed.refused
          intro ha
          obtain ⟨size', hsize, hin⟩ := (ha.erase f h).2
          cases hknown.symm.trans hsize
          omega
        case isFalse hin =>
          exact .changed (.erased h (by simpa using hlatch) hknown hpos rfl (Nat.le_of_not_lt hin))

theorem executed_common {x : Act Emulator Stop Bytes} (h : common? c = some x) :
    Executed e c (x e).1 (x e).2 := by
  unfold common? at h
  dsimp only at h
  split at h
  case isTrue ho =>
    cases h
    simp only [Bool.or_eq_true, beq_iff_eq] at ho
    rcases ho with (ho | ho) | ho
    all_goals
      exact .told (by simp [Command.telling, ho]) (fun hr => absurd (ho.symm.trans hr) (by decide))
        rfl rfl rfl
  case isFalse =>
    split at h
    case isTrue ho =>
      cases h
      rw [beq_iff_eq] at ho
      exact .told (by simp [Command.telling, ho]) (fun hr => absurd (ho.symm.trans hr) (by decide))
        rfl rfl rfl
    case isFalse =>
      split at h
      case isTrue ho =>
        cases h
        exact .enabled (beq_iff_eq.mp ho)
      case isFalse =>
        split at h
        case isTrue ho =>
          cases h
          exact .disabled (beq_iff_eq.mp ho)
        case isFalse =>
          split at h
          case isTrue ho =>
            cases h
            unfold read
            dsimp only
            split
            case isTrue hout =>
              apply Executed.refused
              intro ha
              exact absurd (ha.read (beq_iff_eq.mp ho)) (Nat.not_le.mpr hout)
            case isFalse hin =>
              exact .told (by simp [Command.telling, beq_iff_eq.mp ho])
                (fun _ => Nat.le_of_not_lt hin) rfl rfl rfl
          case isFalse =>
            split at h
            case isTrue ho =>
              cases h
              exact executed_program (beq_iff_eq.mp ho)
            case isFalse => cases h

theorem not_known_of_none (hcommon : common? c = none)
    (herase : EraseFunction.ofOpcode? c.opcode = none) : ¬c.Known := by
  intro hknown
  unfold common? at hcommon
  rcases hknown with ho | ho | ho | ho | ⟨f, ho⟩
  · simp only [Command.telling, List.mem_cons, List.not_mem_nil, or_false] at ho
    rcases ho with ho | ho | ho | ho | ho
    all_goals
      rw [ho] at hcommon
      cases hcommon
  · rw [ho] at hcommon
    cases hcommon
  · rw [ho] at hcommon
    cases hcommon
  · rw [ho] at hcommon
    cases hcommon
  · rw [EraseFunction.ofOpcode?_eq_some_iff.mpr ho.symm] at herase
    cases herase

theorem executed (e : Emulator) (c : Command) :
    Executed e c (execute c e).1 (execute c e).2 := by
  unfold execute
  cases hx : common? c with
  | some x => exact executed_common hx
  | none =>
    cases hf : EraseFunction.ofOpcode? c.opcode with
    | some f => exact executed_erase (EraseFunction.ofOpcode?_eq_some_iff.mp hf).symm
    | none => exact .refused _ fun ha => not_known_of_none hx hf ha.known

namespace Changed

variable {e' : Emulator}

theorem changes (h : Changed e c e') : c.Changes := by
  cases h with
  | programmed opcode => exact .inl opcode
  | @erased f _ _ opcode => exact .inr ⟨f, opcode⟩

theorem chip_eq (h : Changed e c e') : e'.chip = e.chip := by
  cases h <;> rfl

theorem size_eq (h : Changed e c e') : e'.cells.size = e.cells.size := by
  cases h with
  | programmed => exact size_programCells _
  | erased _ _ _ _ _ inside => exact Bytes.size_fill inside

theorem latch_eq (h : Changed e c e') : e'.latch = false := by
  cases h <;> rfl

theorem accepts (h : Changed e c e') : e.Accepts c := by
  cases h with
  | programmed opcode latch inside =>
    refine ⟨.inr (.inr (.inr (.inl opcode))), ?_, fun _ => ⟨latch, inside⟩, ?_⟩
    · intro ho
      exact absurd (opcode.symm.trans ho) (by decide)
    · intro f ho
      exact absurd (ho.symm.trans opcode) f.opcode_ne_common.2.2.2
  | @erased f size start opcode latch known _ aligned inside =>
    refine ⟨.inr (.inr (.inr (.inr ⟨f, opcode⟩))), ?_, ?_, ?_⟩
    · intro ho
      exact absurd (opcode.symm.trans ho) f.opcode_ne_common.2.2.1
    · intro ho
      exact absurd (opcode.symm.trans ho) f.opcode_ne_common.2.2.2
    · intro g ho
      rw [← EraseFunction.opcode_injective (opcode.symm.trans ho)]
      exact ⟨latch, size, known, aligned ▸ inside⟩

/-- What needs the latch is carried out only where it is set. -/
theorem latch_of_needsLatch (h : Changed e c e') (hc : c.NeedsLatch) : e.latch = true := by
  rcases hc with ho | ⟨f, hf, ho⟩
  · exact (h.accepts.program ho).1
  · exact (h.accepts.erase f ho).1 hf

theorem opcode_or_latch (h : Changed e c e') :
    c.opcode = 0x50 ∨ c.opcode = 0x81 ∨ e.latch = true := by
  cases h with
  | programmed _ latch => exact .inr (.inr latch)
  | @erased f _ _ opcode latch =>
    rw [opcode]
    cases f with
    | erase50 => exact .inl rfl
    | erase81 => exact .inr (.inl rfl)
    | erase20 | erase52 | erase60 | erase62 | eraseC4 | eraseC7 | eraseD7 | eraseD8 | eraseDB =>
      exact .inr (.inr (latch rfl))

theorem byteAt_program (h : Changed e c e') (hc : e.chip.Paged) (hs : e.cells.size = e.chip.size)
    (ho : c.opcode = Opcode.pageProgram) (i : Nat) :
    e'.cells.byteAt i = (fallingOn e.chip.pageSize (c.address.getD 0) c.data i).foldl (· &&& ·)
      (e.cells.byteAt i) := by
  cases h with
  | programmed _ _ inside =>
    exact byteAt_programCells_wrapped hc.page_pos (hs ▸ hc.whole) inside i
  | @erased f _ _ opcode => exact absurd (opcode.symm.trans ho) f.opcode_ne_common.2.2.2

theorem byteAt_erase (h : Changed e c e') {f : EraseFunction} (ho : c.opcode = f.opcode) :
    ∃ start size, eraseSize? e.chip f = some size ∧ size ∣ start ∧
      start ≤ c.address.getD 0 ∧ c.address.getD 0 < start + size ∧
      start + size ≤ e.cells.size ∧ ∀ i, e'.cells.byteAt i =
        if start ≤ i ∧ i < start + size then Emulator.erased else e.cells.byteAt i := by
  cases h with
  | programmed opcode => exact absurd (ho.symm.trans opcode) f.opcode_ne_common.2.2.2
  | @erased g size start opcode _ known pos aligned inside =>
    have hg : g = f := EraseFunction.opcode_injective (opcode.symm.trans ho)
    have hmod := Nat.mod_lt (c.address.getD 0) pos
    have hle := Nat.mod_le (c.address.getD 0) size
    refine ⟨start, size, hg ▸ known, aligned ▸ Nat.dvd_sub_mod _, by omega, by omega, inside, ?_⟩
    intro i
    exact Bytes.byteAt_fill inside

end Changed

namespace Executed

variable {r : Except Stop Bytes} {e' : Emulator}

theorem changed_of_done (h : Executed e c r e') (hr : Exchange.Done ⟨c, r⟩) (hc : c.Changes) :
    Changed e c e' := by
  cases h with
  | refused | crashed => simp [Exchange.Done] at hr
  | told opcode => exact absurd hc (Command.not_changes_of_telling opcode)
  | enabled opcode => exact absurd hc (Command.not_changes_writeEnable opcode)
  | disabled opcode => exact absurd hc (Command.not_changes_writeDisable opcode)
  | changed change => exact change

theorem changed_of_ne (h : Executed e c r e') (hne : e'.cells ≠ e.cells) : Changed e c e' := by
  cases h with
  | told _ _ _ cells => exact absurd cells hne
  | changed change => exact change
  | refused | crashed | enabled | disabled => exact absurd rfl hne

theorem chip_eq (h : Executed e c r e') : e'.chip = e.chip := by
  cases h with
  | told _ _ chip => exact chip
  | changed change => exact change.chip_eq
  | refused | crashed | enabled | disabled => rfl

theorem size_eq (h : Executed e c r e') : e'.cells.size = e.cells.size := by
  cases h with
  | told _ _ _ cells => rw [cells]
  | changed change => exact change.size_eq
  | refused | crashed | enabled | disabled => rfl

/-- The latch is set by a write enable alone, and stays set until something clears it. -/
theorem latch_iff (h : Executed e c r e') :
    e'.latch = true ↔
      Exchange.Enables ⟨c, r⟩ ∨ e.latch = true ∧ ¬Exchange.Disarms ⟨c, r⟩ := by
  cases h with
  | refused | crashed => simp [Exchange.Enables, Exchange.Disarms, Exchange.Done]
  | told opcode _ _ _ latch =>
    have hchanges := Command.not_changes_of_telling opcode
    have henable : c.opcode ≠ Opcode.writeEnable := Command.ne_of_telling opcode (by decide)
    have hdisable : c.opcode ≠ Opcode.writeDisable := Command.ne_of_telling opcode (by decide)
    simp [Exchange.Enables, Exchange.Disarms, hchanges, henable, hdisable, latch]
  | enabled opcode => simp [Exchange.Enables, Exchange.Done, opcode]
  | disabled opcode =>
    have hne : Opcode.writeDisable ≠ Opcode.writeEnable := by decide
    simp [Exchange.Enables, Exchange.Disarms, Exchange.Done, opcode, hne]
  | changed change =>
    have hne : c.opcode ≠ Opcode.writeEnable := fun ho =>
      Command.not_changes_writeEnable ho change.changes
    simp [Exchange.Enables, Exchange.Disarms, Exchange.Done, change.latch_eq, change.changes, hne]

/-- The latch tells whether the record is armed, before a command and behind it. -/
theorem latch_armed (h : Executed e c r e') {log : List Exchange}
    (hlatch : e.latch = true ↔ Armed log) : e'.latch = true ↔ Armed (log ++ [⟨c, r⟩]) := by
  rw [h.latch_iff, hlatch]
  exact armed_concat.symm

/-- On a chip of whole pages a command is carried out where all that is asked of it is there. -/
theorem done_iff (h : Executed e c r e') (hc : e.chip.Paged) (hs : e.cells.size = e.chip.size) :
    Exchange.Done ⟨c, r⟩ ↔ e.Accepts c := by
  cases h with
  | refused err bad => simp [Exchange.Done, bad]
  | crashed part => exact absurd ⟨hc, hs⟩ part
  | told opcode inside =>
    have ha : e.Accepts c :=
      .of_not_changes (.inl opcode) (Command.not_changes_of_telling opcode) inside
    simp [Exchange.Done, ha]
  | enabled opcode =>
    have ha : e.Accepts c := .of_not_changes (.inr (.inl opcode))
      (Command.not_changes_writeEnable opcode) fun ho => absurd (opcode.symm.trans ho) (by decide)
    simp [Exchange.Done, ha]
  | disabled opcode =>
    have ha : e.Accepts c := .of_not_changes (.inr (.inr (.inl opcode)))
      (Command.not_changes_writeDisable opcode) fun ho => absurd (opcode.symm.trans ho) (by decide)
    simp [Exchange.Done, ha]
  | changed change => simp [Exchange.Done, change.accepts]

theorem eq_of_error (h : Executed e c r e') (hc : e.chip.Paged) (hs : e.cells.size = e.chip.size)
    (stop : Stop) (hr : r = .error stop) : e' = e ∧ ∃ err, stop = .error err := by
  cases h with
  | crashed part => exact absurd ⟨hc, hs⟩ part
  | refused err _ =>
    cases hr
    exact ⟨rfl, err, rfl⟩
  | told | enabled | disabled | changed => cases hr

end Executed
end Command

/-- A new emulator, with some content over the front of its erased cells. -/
def fresh (chip : Chip) (busyPolls maxRead maxWrite : Nat) (content : Bytes) : Emulator :=
  { ofChip chip with busyPolls, maxRead, maxWrite }.load content

/-- The emulator after some commands, with their record. -/
def served (e : Emulator) (cs : List Command) : Emulator × List Exchange :=
  cs.foldl (fun s c => (programmer.recorded.execute c s).2) (e, [])

/-- What a command on an emulator of the chip comes to, after some exchanges. -/
structure Obeys (chip : Chip) (log : List Exchange) (e : Emulator) (c : Command)
    (r : Except Stop Bytes) (e' : Emulator) : Prop where
  size : e'.cells.size = chip.size
  carried : Exchange.Done ⟨c, r⟩ ↔ e.Accepts c
  refused : ∀ stop, r = .error stop → e' = e ∧ ∃ err, stop = .error err
  program : c.opcode = Opcode.pageProgram → Exchange.Done ⟨c, r⟩ → ∀ i,
    e'.cells.byteAt i =
      (fallingOn chip.pageSize (c.address.getD 0) c.data i).foldl (· &&& ·) (e.cells.byteAt i)
  page : c.opcode = Opcode.pageProgram → Exchange.Done ⟨c, r⟩ → ∀ i,
    i / chip.pageSize ≠ c.address.getD 0 / chip.pageSize → e'.cells.byteAt i = e.cells.byteAt i
  erase : ∀ f : EraseFunction, c.opcode = f.opcode → Exchange.Done ⟨c, r⟩ → ∃ start size,
    eraseSize? chip f = some size ∧ size ∣ start ∧ start ≤ c.address.getD 0 ∧
      c.address.getD 0 < start + size ∧ start + size ≤ chip.size ∧ ∀ i, e'.cells.byteAt i =
        if start ≤ i ∧ i < start + size then erased else e.cells.byteAt i
  others : ¬c.Changes → e'.cells = e.cells
  latch : e'.cells ≠ e.cells → c.opcode = 0x50 ∨ c.opcode = 0x81 ∨ Armed log

/-- An emulator of the chip, with the record of what it was sent, that is like the real thing. -/
structure Lawful (chip : Chip) (s : Emulator × List Exchange) : Prop where
  model : s.1.chip = chip
  size : s.1.cells.size = chip.size
  latch : s.1.latch = true ↔ Armed s.2
  unshared : Unshared s.2
  command : ∀ c, Obeys chip s.2 s.1 c (s.1.execute c).1 (s.1.execute c).2

/-- The invariant of a run of commands. -/
structure Kept (chip : Chip) (s : Emulator × List Exchange) : Prop where
  model : s.1.chip = chip
  size : s.1.cells.size = chip.size
  latch : s.1.latch = true ↔ Armed s.2
  armed : ∀ before x after, s.2 = before ++ x :: after → x.Done → x.command.NeedsLatch →
    Armed before

section Run

variable {chip : Chip} {s : Emulator × List Exchange}

theorem Kept.fresh (chip : Chip) (busyPolls maxRead maxWrite : Nat) (content : Bytes) :
    Kept chip (fresh chip busyPolls maxRead maxWrite content, []) where
  model := rfl
  size := by simp [Emulator.fresh, load, ofChip, Bytes.size_overlayFront]
  latch := by simp [Emulator.fresh, load, ofChip, not_armed_nil]
  armed := by simp

theorem Kept.execute (h : Kept chip s) (c : Command) :
    Kept chip (programmer.recorded.execute c s).2 := by
  obtain ⟨e, log⟩ := s
  obtain ⟨rfl, hsize, hlatch, harmed⟩ := h
  have hx := executed e c
  refine ⟨hx.chip_eq, hx.size_eq.trans hsize, hx.latch_armed hlatch, ?_⟩
  intro before x after hlog hdone hneeds
  rcases split_append hlog with ⟨rest, hold, _⟩ | ⟨rest, hbefore, hnew⟩
  · exact harmed before x rest hold hdone hneeds
  · cases rest with
    | nil =>
      simp only [List.nil_append, List.cons.injEq] at hnew
      obtain ⟨rfl, _⟩ := hnew
      rw [hbefore, List.append_nil]
      exact hlatch.mp ((hx.changed_of_done hdone hneeds.changes).latch_of_needsLatch hneeds)
    | cons y rest => simp at hnew

theorem Kept.served {e : Emulator} (h : Kept chip (e, [])) (cs : List Command) :
    Kept chip (served e cs) := by
  unfold Emulator.served
  apply List.foldlRecOn cs (motive := fun s => Kept chip s)
  · exact h
  · intro s hs c _
    exact hs.execute c

theorem Kept.unshared (h : Kept chip s) : Unshared s.2 := by
  intro before x between y after hlog hx hxn hy hyn
  have harmed := h.armed (before ++ x :: between) y after (by simp [hlog]) hy hyn
  exact harmed.enables_after ⟨hx, .inl hxn.changes⟩

theorem Kept.obeys (h : Kept chip s) (hc : chip.Paged) (c : Command) :
    Obeys chip s.2 s.1 c (s.1.execute c).1 (s.1.execute c).2 := by
  obtain ⟨e, log⟩ := s
  obtain ⟨rfl, hsize, hlatch, _⟩ := h
  have hx := executed e c
  have hprogram (ho : c.opcode = Opcode.pageProgram) (hr : Exchange.Done ⟨c, (e.execute c).1⟩) :=
    (hx.changed_of_done hr (.inl ho)).byteAt_program hc hsize ho
  refine ⟨hx.size_eq.trans hsize, hx.done_iff hc hsize, hx.eq_of_error hc hsize, hprogram, ?_, ?_, ?_, ?_⟩
  · intro ho hr i hi
    rw [hprogram ho hr, fallingOn_of_ne hi, List.foldl_nil]
  · intro f ho hr
    rw [← hsize]
    exact (hx.changed_of_done hr (.inr ⟨f, ho⟩)).byteAt_erase ho
  · intro hidle
    by_contra hne
    exact hidle (hx.changed_of_ne hne).changes
  · intro hne
    rw [← hlatch]
    exact (hx.changed_of_ne hne).opcode_or_latch

/-- Whatever a new emulator is sent, it stays like the real thing. -/
theorem lawful_under_any_commands (hc : chip.Paged) (busyPolls maxRead maxWrite : Nat)
    (content : Bytes) (cs : List Command) :
    Lawful chip (Emulator.served (Emulator.fresh chip busyPolls maxRead maxWrite content) cs) := by
  have h := (Kept.fresh chip busyPolls maxRead maxWrite content).served cs
  exact ⟨h.model, h.size, h.latch, h.unshared, h.obeys hc⟩

/-- Five bytes go to the middle of a page of four: the last two come round to its front, and a
second program without a write enable of its own is refused. -/
def wrapped : Emulator × List Exchange :=
  served (fresh Chip.sample 0 5 3 (Bytes.ofList [0xFF, 0xF0]))
    [.bare Opcode.writeEnable,
      .writeAt Opcode.pageProgram 2 (Bytes.ofList [0x0F, 0xF0, 0x3C, 0xC3, 0x55]),
      .writeAt Opcode.pageProgram 0 (Bytes.ofList [0])]

theorem wrapped_lawful : Chip.sample.Paged ∧
    wrapped.1.cells.data.toList.take 5 = [0x3C, 0xC0, 0x05, 0xF0, 0xFF] ∧
    Lawful Chip.sample wrapped := by
  have hpaged : Chip.sample.Paged := ⟨by decide, by decide, by decide⟩
  exact ⟨hpaged, by decide +kernel, lawful_under_any_commands hpaged 0 5 3 _ _⟩

end Run
end Emulator
end NorFlash
