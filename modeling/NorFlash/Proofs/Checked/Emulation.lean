import NorFlash.Proofs.Checked.Planning
import NorFlash.Proofs.RawCommands
import NorFlash.Proofs.Safeguards

namespace NorFlash

namespace Checked

def rem (m n : Nat) : Except Stop Nat := if n = 0 then .error .crashed else .ok (m % n)

/-- The part `[lo, hi)` of the cells. -/
def slice (cells : Bytes) (lo hi : Nat) : Except Stop Bytes :=
  if lo ≤ hi ∧ hi ≤ cells.size then .ok (cells.extract lo hi) else .error .crashed

/-- The cells with one of them changed. -/
def modify (cells : Bytes) (i : Nat) (f : UInt8 → UInt8) : Except Stop Bytes :=
  if i < cells.size then .ok (cells.modifyAt i f) else .error .crashed

/-- The cells with `[lo, hi)` set to one value. -/
def fill (cells : Bytes) (lo hi : Nat) (v : UInt8) : Except Stop Bytes :=
  if lo ≤ hi ∧ hi ≤ cells.size then .ok (cells.fill lo (hi - lo) v) else .error .crashed

namespace Emulation

def read (addr len : Nat) (e : Emulator) : Except Stop (Bytes × Emulator) :=
  if e.cells.size < addr + len then .error (.error .addressOutOfBounds)
  else do
    let reply ← slice e.cells addr (addr + len)
    return (reply, { e with journal := e.journal.push (.read addr len) })

/-- Programs the last `n` of the data's bytes into the page at `base`. -/
def programCells (page base addr : Nat) (data : Bytes) : (n : Nat) → Bytes → Except Stop Bytes
  | 0, cells => return cells
  | n + 1, cells => do
    let i := data.size - (n + 1)
    let within ← sub addr base
    let offset ← rem (within + i) page
    let cells ← modify cells (base + offset) (· &&& data.byteAt i)
    programCells page base addr data n cells

def program (addr : Nat) (data : Bytes) (e : Emulator) : Except Stop (Bytes × Emulator) :=
  if !e.latch then .error (.error .writeProtected)
  else if e.cells.size ≤ addr then .error (.error .addressOutOfBounds)
  else do
    let past ← rem addr e.chip.pageSize
    let base ← sub addr past
    let cells ← programCells e.chip.pageSize base addr data data.size e.cells
    return (ByteArray.empty, e.settle (fun _ => cells) (.program addr data.size))

def erase (f : EraseFunction) (addr : Nat) (e : Emulator) : Except Stop (Bytes × Emulator) :=
  if f.needsWriteEnable && !e.latch then .error (.error .writeProtected)
  else match Emulator.eraseSize? e.chip f with
    | none => .error (.error .opcodeNotSupported)
    | some size => do
      let past ← rem addr size
      let start ← sub addr past
      if e.cells.size < start + size then .error (.error .addressOutOfBounds)
      else do
        let cells ← fill e.cells start (start + size) Emulator.erased
        return (ByteArray.empty, e.settle (fun _ => cells) (.erase f.opcode start size))

/-- Where nothing comes of it the emulator stays as it is. -/
def run (x : Emulator → Except Stop (Bytes × Emulator)) : Act Emulator Stop Bytes := fun e =>
  match x e with
  | .ok (reply, e') => (.ok reply, e')
  | .error stop => (.error stop, e)

/-- The instructions that have to do with cells; the others look nothing up. -/
def execute (c : Command) : Act Emulator Stop Bytes :=
  let addr := c.address.getD 0
  if c.opcode == Opcode.readData then run (read addr c.buffer.size)
  else if c.opcode == Opcode.pageProgram then run (program addr c.data)
  else match EraseFunction.ofOpcode? c.opcode with
    | some f => run (erase f addr)
    | none => Emulator.execute c

end Emulation
end Checked

/-- A program that starts inside the cells and has a byte for a place behind their end. -/
structure Emulator.Overruns (e : Emulator) (c : Command) : Prop where
  opcode : c.opcode = Opcode.pageProgram
  latch : e.latch = true
  inside : c.address.getD 0 < e.cells.size
  beyond : ∃ k < c.data.size,
    e.cells.size ≤ Emulator.programPlace e.chip.pageSize (c.address.getD 0) k

namespace Emulator

variable {n addr page size : Nat} {c : Command} {f : EraseFunction}

/-- A program is told to reach behind the cells where one of its bytes does. -/
theorem lt_programStop_iff (hpage : 0 < page) (h : addr < size) :
    size < programStop page addr n ↔
      ∃ k < n, size ≤ programPlace page addr k := by
  have hmod := Nat.mod_lt addr hpage
  have hle := Nat.mod_le addr page
  unfold programStop
  constructor
  · intro hstop
    split at hstop
    case isTrue hfits =>
      refine ⟨n - 1, by omega, ?_⟩
      rw [programPlace_of_lt (by omega)]
      omega
    case isFalse =>
      -- the byte for the last place of the page
      refine ⟨page - 1 - addr % page, by omega, ?_⟩
      rw [programPlace_of_lt (by omega)]
      omega
  · intro ⟨k, hk, hplace⟩
    split
    case isTrue hfits =>
      rw [programPlace_of_lt (by omega)] at hplace
      omega
    case isFalse =>
      have hlast := Nat.mod_lt (addr % page + k) hpage
      unfold programPlace at hplace
      omega

theorem execute_of_read (h : c.opcode = Opcode.readData) :
    execute c = read (c.address.getD 0) c.buffer.size := by
  unfold execute common?
  rw [h]
  rfl

theorem execute_of_program (h : c.opcode = Opcode.pageProgram) :
    execute c = program (c.address.getD 0) c.data := by
  unfold execute common?
  rw [h]
  rfl

theorem execute_of_erase (h : EraseFunction.ofOpcode? c.opcode = some f) :
    execute c = erase f (c.address.getD 0) := by
  unfold execute common?
  rw [← EraseFunction.ofOpcode?_eq_some_iff.mp h]
  cases f <;> rfl

end Emulator

namespace Checked

variable {m n addr page len size : Nat} {data cells : Bytes} {e : Emulator} {c : Command}
  {chip : Chip} {f : EraseFunction}

theorem rem_of_pos (h : 0 < n) : rem m n = .ok (m % n) := if_neg (Nat.ne_of_gt h)

theorem sub_mod (addr page : Nat) : sub addr (addr % page) = .ok (addr - addr % page) :=
  sub_of_le (Nat.mod_le addr page)

namespace Emulation

theorem run_ok {x : Emulator → Except Stop (Bytes × Emulator)} {reply : Bytes} {e' : Emulator}
    (h : x e = .ok (reply, e')) : run x e = (.ok reply, e') := by
  rw [run, h]

theorem run_error {x : Emulator → Except Stop (Bytes × Emulator)} {stop : Stop}
    (h : x e = .error stop) : run x e = (.error stop, e) := by
  rw [run, h]

theorem read_eq : run (read addr len) e = Emulator.read addr len e := by
  unfold Emulator.read
  split
  case isTrue hout => exact run_error (if_pos hout)
  case isFalse hin =>
    apply run_ok
    rw [read, if_neg hin, slice, if_pos (by omega)]
    rfl

/-- One byte finds its place, or there is none and that is all. -/
theorem programCells_succ (hpage : 0 < page) :
    programCells page (addr - addr % page) addr data (n + 1) cells =
      if Emulator.programPlace page addr (data.size - (n + 1)) < cells.size then
        programCells page (addr - addr % page) addr data n
          (cells.modifyAt (Emulator.programPlace page addr (data.size - (n + 1)))
            (· &&& data.byteAt (data.size - (n + 1))))
      else .error .crashed := by
  have hle := Nat.mod_le addr page
  rw [programCells, sub_of_le (Nat.sub_le addr (addr % page)), ok_bind, rem_of_pos hpage, ok_bind,
    Nat.sub_sub_self hle]
  unfold modify Emulator.programPlace
  split <;> rfl

theorem programCells_eq (hpage : 0 < page) (hn : n ≤ data.size)
    (h : ∀ k < data.size, Emulator.programPlace page addr k < cells.size) :
    programCells page (addr - addr % page) addr data n cells =
      .ok (Emulator.programCells page addr data n cells) := by
  induction n generalizing cells with
  | zero => rfl
  | succ n ih =>
    rw [programCells_succ hpage, if_pos (h _ (by omega)), Emulator.programCells]
    apply ih (by omega)
    intro k hk
    rw [Bytes.size_modifyAt]
    exact h k hk

theorem programCells_crashed (hpage : 0 < page) (hn : n ≤ data.size)
    (h : ∃ k < data.size, data.size - n ≤ k ∧ cells.size ≤ Emulator.programPlace page addr k) :
    programCells page (addr - addr % page) addr data n cells = .error .crashed := by
  obtain ⟨k, hk, hfrom, hplace⟩ := h
  induction n generalizing cells with
  | zero => omega
  | succ n ih =>
    rw [programCells_succ hpage]
    split
    case isFalse => rfl
    case isTrue hin =>
      have hne : k ≠ data.size - (n + 1) := by
        rintro rfl
        omega
      apply ih (by omega) (by omega)
      rw [Bytes.size_modifyAt]
      exact hplace

theorem program_eq : run (program addr data) e = Emulator.program addr data e := by
  unfold Emulator.program
  dsimp only
  split
  case isTrue hlatch => exact run_error (if_pos hlatch)
  case isFalse hlatch =>
    split
    case isTrue hout => exact run_error ((if_neg hlatch).trans (if_pos hout))
    case isFalse hin =>
      have hrun : program addr data e = _ := (if_neg hlatch).trans (if_neg hin)
      rcases Nat.eq_zero_or_pos e.chip.pageSize with hpage | hpage
      · rw [hpage] at hrun ⊢
        exact run_error hrun
      rw [rem_of_pos hpage, ok_bind, sub_mod, ok_bind] at hrun
      have hstop := Emulator.lt_programStop_iff (n := data.size) hpage (Nat.lt_of_not_le hin)
      have hzero : (e.chip.pageSize == 0) = false := by simpa using Nat.ne_of_gt hpage
      rw [hzero, Bool.false_or]
      by_cases hover : e.cells.size < Emulator.programStop e.chip.pageSize addr data.size
      · obtain ⟨k, hk, hplace⟩ := hstop.mp hover
        rw [programCells_crashed hpage (Nat.le_refl _) ⟨k, hk, by omega, hplace⟩] at hrun
        rw [if_pos (decide_eq_true hover)]
        exact run_error hrun
      · have hall : ∀ k < data.size,
            Emulator.programPlace e.chip.pageSize addr k < e.cells.size := by
          intro k hk
          by_contra hplace
          exact hover (hstop.mpr ⟨k, hk, Nat.le_of_not_lt hplace⟩)
        rw [programCells_eq hpage (Nat.le_refl _) hall] at hrun
        rw [if_neg (by simpa using hover)]
        exact run_ok hrun

theorem erase_eq : run (erase f addr) e = Emulator.erase f addr e := by
  unfold Emulator.erase
  split
  case isTrue hlatch => exact run_error (if_pos hlatch)
  case isFalse hlatch =>
    have hrun : erase f addr e = _ := if_neg hlatch
    cases hknown : Emulator.eraseSize? e.chip f with
    | none =>
      rw [hknown] at hrun
      exact run_error hrun
    | some size =>
      rw [hknown] at hrun
      unfold Emulator.eraseCells
      dsimp only at hrun ⊢
      rcases Nat.eq_zero_or_pos size with rfl | hsize
      · exact run_error hrun
      rw [rem_of_pos hsize, ok_bind, sub_mod, ok_bind] at hrun
      rw [if_neg (by simpa using Nat.ne_of_gt hsize)]
      split
      case isTrue hout =>
        rw [if_pos hout] at hrun
        exact run_error hrun
      case isFalse hin =>
        rw [if_neg hin, fill, if_pos (by omega), Nat.add_sub_cancel_left] at hrun
        exact run_ok hrun

/-- Looking everything up changes nothing. -/
theorem execute_eq (c : Command) (e : Emulator) : execute c e = Emulator.execute c e := by
  by_cases hread : c.opcode = Opcode.readData
  · rw [execute, if_pos (beq_iff_eq.mpr hread), read_eq, Emulator.execute_of_read hread]
  by_cases hprogram : c.opcode = Opcode.pageProgram
  · rw [execute, if_neg (by simpa using hread), if_pos (beq_iff_eq.mpr hprogram), program_eq,
      Emulator.execute_of_program hprogram]
  rw [execute, if_neg (by simpa using hread), if_neg (by simpa using hprogram)]
  cases hf : EraseFunction.ofOpcode? c.opcode with
  | none => rfl
  | some f => exact erase_eq.trans (congrFun (Emulator.execute_of_erase hf).symm e)

end Emulation
end Checked

namespace Emulator

variable {c : Command} {e : Emulator} {addr : Nat} {data : Bytes} {chip : Chip}
  {f : EraseFunction}

theorem program_crashed_iff (hpage : 0 < e.chip.pageSize) :
    (program addr data e).1 = .error .crashed ↔ e.latch = true ∧ addr < e.cells.size ∧
      ∃ k < data.size, e.cells.size ≤ programPlace e.chip.pageSize addr k := by
  have hzero : (e.chip.pageSize == 0) = false := by simpa using Nat.ne_of_gt hpage
  unfold program
  dsimp only
  rw [hzero, Bool.false_or]
  split
  case isTrue hlatch => simp_all
  case isFalse hlatch =>
    split
    case isTrue hout =>
      constructor
      · exact nofun
      · intro ⟨_, hin, _⟩
        omega
    case isFalse hin =>
      have hstop := lt_programStop_iff (n := data.size) hpage (Nat.lt_of_not_le hin)
      split
      case isTrue hover =>
        have hset : e.latch = true := by simpa using hlatch
        simpa [hset, Nat.lt_of_not_le hin] using hstop.mp (by simpa using hover)
      case isFalse hfits =>
        constructor
        · exact nofun
        · intro ⟨_, _, hbeyond⟩
          exact absurd (decide_eq_true (hstop.mpr hbeyond)) hfits

theorem erase_ne_crashed (hsize : 0 < e.chip.size) : (erase f addr e).1 ≠ .error .crashed := by
  unfold erase
  split
  case isTrue => exact nofun
  case isFalse =>
    cases hknown : eraseSize? e.chip f with
    | none => exact nofun
    | some size =>
      have hpos := eraseSize?_pos hsize hknown
      unfold eraseCells
      dsimp only
      rw [if_neg (by simpa using Nat.ne_of_gt hpos)]
      split <;> exact nofun

theorem common?_ne_crashed {x : Act Emulator Stop Bytes} (h : common? c = some x)
    (hc : c.opcode ≠ Opcode.pageProgram) : (x e).1 ≠ .error .crashed := by
  unfold common? at h
  split_ifs at h with _ _ _ _ _ hprogram <;> cases h
  · exact nofun
  · exact nofun
  · exact nofun
  · exact nofun
  · unfold read
    split <;> exact nofun
  · exact absurd (beq_iff_eq.mp hprogram) hc

/-- Programs that overrun the cells crash, and nothing else does. -/
theorem execute_crashed_iff (hsize : 0 < e.chip.size) (hpage : 0 < e.chip.pageSize) :
    (execute c e).1 = .error .crashed ↔ e.Overruns c := by
  by_cases hc : c.opcode = Opcode.pageProgram
  · rw [execute_of_program hc, program_crashed_iff hpage]
    constructor
    · intro ⟨hlatch, hin, hbeyond⟩
      exact ⟨hc, hlatch, hin, hbeyond⟩
    · intro h
      exact ⟨h.latch, h.inside, h.beyond⟩
  · constructor
    · intro hcrashed
      refine absurd hcrashed ?_
      unfold execute
      cases hx : common? c with
      | some x => exact common?_ne_crashed hx hc
      | none =>
        cases EraseFunction.ofOpcode? c.opcode with
        | some f => exact erase_ne_crashed hsize
        | none => exact nofun
    · intro h
      exact absurd h.opcode hc

/-- A new emulator after a write enable. -/
def enabled (chip : Chip) : Emulator := { ofChip chip with latch := true }

theorem execute_enabled (chip : Chip) :
    execute (.bare Opcode.writeEnable) (ofChip chip) = (.ok ByteArray.empty, enabled chip) := rfl

theorem size_enabled (chip : Chip) : (enabled chip).cells.size = chip.size :=
  Bytes.size_filled _ _

theorem enabled_overruns {n k : Nat} (hin : addr < chip.size) (hk : k < n)
    (hbeyond : chip.size ≤ programPlace chip.pageSize addr k) :
    (enabled chip).Overruns (.writeAt Opcode.pageProgram addr (Bytes.filled n 0)) := by
  refine ⟨rfl, rfl, ?_, k, ?_, ?_⟩
  · rw [size_enabled]
    exact hin
  · change k < (Bytes.filled n 0).size
    rw [Bytes.size_filled]
    exact hk
  · rw [size_enabled]
    exact hbeyond

/-- The last page of a chip that does not fill it can be overrun. -/
theorem exists_overruns (hc : chip.Accepted) (hpart : ¬chip.pageSize ∣ chip.size) :
    ∃ c : Command, c.address.getD 0 < addressSpace ∧ (enabled chip).Overruns c := by
  have hpast : 0 < chip.size % chip.pageSize :=
    Nat.pos_of_ne_zero (mt Nat.dvd_of_mod_eq_zero hpart)
  have hmod := Nat.mod_lt chip.size hc.page_pos
  have hle := Nat.mod_le chip.size chip.pageSize
  have hlt := hc.size_lt
  obtain ⟨last, hlast⟩ : ∃ last, last = chip.size - chip.size % chip.pageSize := ⟨_, rfl⟩
  have hfront : last % chip.pageSize = 0 :=
    Nat.mod_eq_zero_of_dvd (hlast ▸ Nat.dvd_sub_mod chip.size)
  have hin : last < chip.size := by omega
  refine ⟨_, Nat.lt_trans hin hlt, enabled_overruns hin hmod ?_⟩
  rw [programPlace_of_lt (by omega)]
  omega

/-- Looked at in every place, a command to an emulated chip is answered or refused unless it is a
program that overruns the cells. The chips on which none can are those of whole pages. -/
theorem crashes_only_past_cells (hc : chip.Accepted) :
    (∀ (e : Emulator) (c : Command), e.chip = chip → e.cells.size = chip.size →
      Checked.Emulation.execute c e = e.execute c ∧
        (Checked.Emulation.execute c e).1 ≠ .error .stalled ∧
        ((Checked.Emulation.execute c e).1 = .error .crashed ↔ e.Overruns c)) ∧
      ((∀ (e : Emulator) (c : Command), e.chip = chip → e.cells.size = chip.size →
          c.address.getD 0 < addressSpace → (Checked.Emulation.execute c e).1 ≠ .error .crashed) ↔
        chip.pageSize ∣ chip.size) := by
  have hcrashed (e : Emulator) (c : Command) (he : e.chip = chip) :
      (Checked.Emulation.execute c e).1 = .error .crashed ↔ e.Overruns c := by
    rw [Checked.Emulation.execute_eq]
    exact execute_crashed_iff (he ▸ hc.size_pos) (he ▸ hc.page_pos)
  refine ⟨fun e c he _ =>
    ⟨Checked.Emulation.execute_eq c e, fun hstalled => ?_, hcrashed e c he⟩, ?_⟩
  · rw [Checked.Emulation.execute_eq] at hstalled
    exact answers_no_stall ⟨c, e, hstalled⟩
  constructor
  · intro hnone
    by_contra hpart
    obtain ⟨c, haddr, hover⟩ := exists_overruns hc hpart
    exact hnone _ c rfl (size_enabled chip) haddr ((hcrashed _ c rfl).mpr hover)
  · intro hwhole e c he hs _ h
    obtain ⟨_, _, hin, k, hk, hbeyond⟩ := (hcrashed e c he).mp h
    rw [he, hs] at hbeyond
    rw [hs] at hin
    have hstop := programStop_le hwhole hin c.data.size
    exact absurd ((lt_programStop_iff hc.page_pos hin).mpr ⟨k, hk, hbeyond⟩)
      (Nat.not_lt.mpr hstop)

end Emulator

/-- A chip of one page and a half. -/
def Chip.partPage : Chip where
  id := ""
  vendor := ""
  name := ""
  manufacturer := 0
  model := 0
  size := 384
  pageSize := 256
  features := {}
  voltageMin := 2700
  voltageMax := 3600
  probe := .rdid
  regions := []

theorem Chip.partPage_accepted : partPage.Accepted :=
  toChips_vendorDefinition.mp (by cbv)

namespace Emulator

theorem crashes_only_past_cells_partPage : Chip.partPage.Accepted ∧
    ∃ (e : Emulator) (c : Command), e.chip = Chip.partPage ∧ e.cells.size = 384 ∧
      c.address.getD 0 < addressSpace ∧ (Checked.Emulation.execute c e).1 = .error .crashed := by
  refine ⟨Chip.partPage_accepted, ?_⟩
  by_contra hnone
  have hwhole : Chip.partPage.pageSize ∣ Chip.partPage.size :=
    (crashes_only_past_cells Chip.partPage_accepted).2.mp fun e c he hs haddr h =>
      hnone ⟨e, c, he, hs, haddr, h⟩
  exact absurd hwhole (by decide)

/-- The chip is taken from a vendor file, and after a write enable a program of 129 bytes at the
start of its half page runs over the end of the cells. -/
theorem program_crashes_partPage :
    Chip.partPage.vendorDefinition.toChips = .ok [Chip.partPage] ∧
      let e := enabled Chip.partPage
      let c := Command.writeAt Opcode.pageProgram 256 (Bytes.filled 129 0)
      execute (.bare Opcode.writeEnable) (ofChip Chip.partPage) = (.ok ByteArray.empty, e) ∧
        c.address.getD 0 < addressSpace ∧ (Checked.Emulation.execute c e).1 = .error .crashed ∧
        (e.execute c).1 = .error .crashed := by
  refine ⟨Chip.toChips_vendorDefinition.mpr Chip.partPage_accepted, ?_⟩
  intro e c
  have hbeyond : Chip.partPage.size ≤ programPlace Chip.partPage.pageSize 256 128 := by decide
  have hover : e.Overruns c := enabled_overruns (by decide) (by decide) hbeyond
  have hcrashed : (e.execute c).1 = .error .crashed :=
    (execute_crashed_iff (by decide) (by decide)).mpr hover
  refine ⟨execute_enabled _, by decide, ?_, hcrashed⟩
  rw [Checked.Emulation.execute_eq]
  exact hcrashed

end Emulator
end NorFlash
