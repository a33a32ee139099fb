import NorFlash.Proofs.Accepted
import NorFlash.Proofs.Performs
import NorFlash.Protocol.Cells

namespace NorFlash

variable {σ : Type} {p : Programmer σ} {view : σ → Emulator} {faultless : Prop} {s : σ}

namespace Emulator

theorem status_latch (e : Emulator) : (e.status &&& Opcode.latchBit != 0) = e.latch := by
  unfold status
  cases e.latch <;> split <;> decide

theorem status_busy (e : Emulator) : (e.status &&& Opcode.busyBit == 0) = decide (e.busy = 0) := by
  unfold status
  cases e.latch <;> split <;> rename_i h
  · rw [decide_eq_false (by omega)]
    decide
  · rw [decide_eq_true (by omega)]
    decide
  · rw [decide_eq_false (by omega)]
    decide
  · rw [decide_eq_true (by omega)]
    decide

theorem execute_readStatus (e : Emulator) (buffer : Bytes) :
    e.execute (.readRegister Opcode.readStatus buffer) =
      (.ok (Bytes.filled 1 e.status), { e with busy := e.busy - 1 }) := rfl

theorem execute_writeEnable (e : Emulator) :
    e.execute (.bare Opcode.writeEnable) = (.ok ByteArray.empty, { e with latch := true }) := rfl

theorem execute_readData (e : Emulator) (addr : Nat) (buffer : Bytes) :
    e.execute (.readAt Opcode.readData addr buffer) = e.read addr buffer.size := rfl

theorem execute_pageProgram (e : Emulator) (addr : Nat) (data : Bytes) :
    e.execute (.writeAt Opcode.pageProgram addr data) = e.program addr data := rfl

theorem execute_erase (e : Emulator) (f : EraseFunction) (addr : Nat) :
    e.execute (Programmer.eraseCommand f addr) =
      e.erase f (if f.erasesChip then 0 else addr) := by
  cases f <;> rfl

/-- An instruction for the whole chip carries no address, which reads as zero. -/
theorem eraseAddress_eq {f : EraseFunction} {addr : Nat} (h : f.erasesChip = true → addr = 0) :
    (if f.erasesChip then 0 else addr) = addr := by
  split
  case isTrue hf => exact (h hf).symm
  case isFalse => rfl

variable {e : Emulator} {addr len page : Nat} {data cells : Bytes} {f : EraseFunction}

theorem After.read (e : Emulator) (addr len : Nat) :
    e.After [.read addr len] { e with journal := e.journal.push (.read addr len) } :=
  ⟨rfl, rfl, rfl, rfl, rfl, rfl, by simp [CellOperation.entry], Nat.le_max_left _ _⟩

/-- What a program or erase does is known by what it does to the cells. -/
theorem After.settle (op : CellOperation) {g : Bytes → Bytes}
    (hs : (g e.cells).size = e.cells.size)
    (hc : (g e.cells).byteAt = op.effect e.cells.byteAt) : e.After [op] (e.settle g op.entry) :=
  ⟨rfl, rfl, rfl, rfl, hs, hc, by simp [Emulator.settle], Nat.le_max_right _ _⟩

theorem read_ok (h : addr + len ≤ e.cells.size) :
    e.read addr len = (.ok (e.cells.extract addr (addr + len)),
      { e with journal := e.journal.push (.read addr len) }) :=
  if_neg (Nat.not_lt.mpr h)

/-- Inside its page a program does not wrap. -/
theorem programPlace_of_lt {i : Nat} (h : addr % page + i < page) :
    programPlace page addr i = addr + i := by
  have := Nat.mod_le addr page
  rw [programPlace, Nat.mod_eq_of_lt h]
  omega

theorem size_programCells (n : Nat) :
    (programCells page addr data n cells).size = cells.size := by
  induction n generalizing cells with
  | zero => rfl
  | succ n ih => rw [programCells, ih, Bytes.size_modifyAt]

theorem byteAt_programCells (hp : addr % page + data.size ≤ page)
    (hs : addr + data.size ≤ cells.size) {n : Nat} (hn : n ≤ data.size) (i : Nat) :
    (programCells page addr data n cells).byteAt i =
      if addr + (data.size - n) ≤ i ∧ i < addr + data.size then
        cells.byteAt i &&& data.byteAt (i - addr)
      else cells.byteAt i := by
  induction n generalizing cells with
  | zero => rw [programCells, if_neg (by omega)]
  | succ n ih =>
    rw [programCells, ih (by rwa [Bytes.size_modifyAt]) (by omega),
      programPlace_of_lt (by omega), Bytes.byteAt_modifyAt _ (by omega)]
    by_cases hi : i = addr + (data.size - (n + 1))
    · rw [if_neg (by omega), if_pos hi, if_pos (by omega), ← hi]
      congr 2
      omega
    · rw [if_neg hi]
      congr 1
      simp only [eq_iff_iff]
      omega

theorem program_ok (hl : e.latch = true) (hpos : 0 < data.size)
    (hp : addr % e.chip.pageSize + data.size ≤ e.chip.pageSize)
    (hs : addr + data.size ≤ e.cells.size) :
    e.program addr data = (.ok ByteArray.empty,
      e.settle (programCells e.chip.pageSize addr data data.size) (.program addr data.size)) := by
  have hstop : programStop e.chip.pageSize addr data.size = addr + data.size := if_pos hp
  have hpage : (e.chip.pageSize == 0) = false := by
    simp only [beq_eq_false_iff_ne]
    omega
  unfold program
  rw [hl, if_neg (by decide), if_neg (by omega), hstop, hpage, if_neg]
  simp only [Bool.false_or, decide_eq_true_eq]
  omega

theorem After.program (hp : addr % e.chip.pageSize + data.size ≤ e.chip.pageSize)
    (hs : addr + data.size ≤ e.cells.size) :
    e.After [.program addr data] (e.settle (programCells e.chip.pageSize addr data data.size)
      (.program addr data.size)) := by
  refine .settle (.program addr data) (size_programCells _) ?_
  funext i
  rw [byteAt_programCells hp hs (Nat.le_refl _), Nat.sub_self, Nat.add_zero]
  rfl

theorem erase_ok (hl : f.needsWriteEnable = true → e.latch = true)
    (hk : eraseSize? e.chip f = some len) (hpos : 0 < len)
    (hs : addr - addr % len + len ≤ e.cells.size) :
    e.erase f addr = (.ok ByteArray.empty,
      e.settle (fun cells => cells.fill (addr - addr % len) len erased)
        (.erase f.opcode (addr - addr % len) len)) := by
  unfold erase
  rw [if_neg (by simpa using hl), hk]
  simp only [eraseCells]
  rw [if_neg (by simp; omega), if_neg (by omega)]

theorem After.erase (hs : addr + len ≤ e.cells.size) :
    e.After [.erase f addr len]
      (e.settle (fun cells => cells.fill addr len erased) (.erase f.opcode addr len)) := by
  refine .settle (.erase f addr len) (Bytes.size_fill hs) ?_
  funext i
  exact Bytes.byteAt_fill hs

end Emulator

theorem Programmer.pollReady_succ (p : Programmer σ) (interval polls : Nat) :
    p.pollReady interval (polls + 1) = p.readStatus >>= fun status =>
      if status &&& Opcode.busyBit == 0 then pure ()
      else Act.modify (p.delay interval) >>= fun _ => p.pollReady interval polls := by
  funext s
  cases h : p.readStatus s with
  | mk res s' =>
    cases res with
    | ok status =>
      rw [Act.bind_ok h, Programmer.pollReady, h]
      dsimp only
      split <;> rfl
    | error e => rw [Act.bind_error h, Programmer.pollReady, h]

/-- The guard of an erase does not stop a block of the whole chip that is just that. -/
theorem Programmer.eraseBlock_unguarded {f : EraseFunction} {addr len chipSize : Nat}
    (h : f.erasesChip = true → addr = 0 ∧ len = chipSize) :
    p.eraseBlock f addr len chipSize = p.enableErase f addr >>= fun _ =>
      p.sendErase f addr >>= fun _ => p.waitReady f.pollInterval := by
  refine if_neg fun hguard => ?_
  simp only [Bool.and_eq_true, Bool.or_eq_true, bne_iff_ne, ne_eq] at hguard
  obtain ⟨hstart, hlen⟩ := h hguard.1
  rcases hguard.2 with hne | hne
  · exact hne hstart
  · exact hne hlen

namespace Programmer.Carries

theorem readStatus (hp : p.Carries view faultless) :
    Performs view faultless p.readStatus s []
      (fun a e => a = (view s).status ∧ e = { view s with busy := (view s).busy - 1 }) := by
  refine .bind_idle (hp.send ((view s).execute_readStatus _) (.idle _ (Nat.sub_le _ 1))) ?_
  intro a s' _ h
  obtain ⟨rfl, hv⟩ := h
  refine .pure ⟨?_, hv⟩
  have he : Bytes.overlayFront (Bytes.filled 1 0) (Bytes.filled 1 (view s).status) =
      Bytes.filled 1 (view s).status := Bytes.overlayFront_of_size_eq rfl
  exact (congrArg (Bytes.byteAt · 0) he).trans (Bytes.byteAt_filled Nat.one_pos)

theorem writeEnable (hp : p.Carries view faultless) :
    Performs view faultless p.writeEnable s []
      (fun _ e => e = { view s with latch := true }) := by
  refine .bind_idle (hp.send ((view s).execute_writeEnable) (.idle _ (Nat.le_refl _))) ?_
  intro a s' _ h
  exact .pure h.2

theorem checkLatch (hp : p.Carries view faultless) :
    Performs view faultless p.checkLatch s []
      (fun a e => a = (view s).latch ∧ e = { view s with busy := (view s).busy - 1 }) := by
  refine .bind_idle hp.readStatus ?_
  intro a s' _ h
  obtain ⟨rfl, hv⟩ := h
  exact .pure ⟨(view s).status_latch, hv⟩

/-- With more polls left than busy answers to come the wait ends. -/
theorem pollReady (hp : p.Carries view faultless) (interval : Nat) {polls : Nat}
    (h : (view s).busy < polls) :
    Performs view faultless (p.pollReady interval polls) s []
      (fun _ e => e = { view s with busy := 0 }) := by
  induction polls generalizing s with
  | zero => omega
  | succ polls ih =>
    rw [pollReady_succ]
    refine .bind_idle hp.readStatus ?_
    intro a s' _ h
    obtain ⟨rfl, hv⟩ := h
    rw [Emulator.status_busy]
    by_cases hb : (view s).busy = 0
    · rw [if_pos (by simpa using hb)]
      refine .pure ?_
      rw [hv, hb]
    · rw [if_neg (by simpa using hb)]
      refine .bind_value (.modify (hp.delay interval s')) fun s'' hd => ?_
      have hbusy : (view s'').busy = (view s).busy - 1 := by rw [hd, hv]
      refine (ih (by omega)).mono fun _ e _ he => ?_
      rw [he, hd, hv]

theorem waitReady (hp : p.Carries view faultless) (interval : Nat)
    (h : (view s).busy < endlessPolls) :
    Performs view faultless (p.waitReady interval) s []
      (fun _ e => e = { view s with busy := 0 }) := by
  refine hp.pollReady interval ?_
  rw [hp.patience]
  exact h

variable {c : Chip} {b : Block} {f : EraseFunction} {addr len : Nat} {data buffer : Bytes}

theorem readInto (hp : p.Carries view faultless) (h : addr + buffer.size ≤ (view s).cells.size) :
    Performs view faultless (p.readInto addr buffer) s [.read addr buffer.size]
      (fun a _ => a = (view s).cells.extract addr (addr + buffer.size)) := by
  have hx := ((view s).execute_readData addr buffer).trans (Emulator.read_ok h)
  refine hp.onError ((hp.send hx (.read _ _ _)).mono ?_)
  intro a e _ h
  obtain ⟨rfl, _⟩ := h
  exact Bytes.overlayFront_of_size_eq (Bytes.size_extract_add h)

/-- The latch is set before the status is asked for, and the status shows it. -/
theorem programPage (hp : p.Carries view faultless) (he : (view s).Emulates c)
    (hpos : 0 < data.size) (hpage : addr % c.pageSize + data.size ≤ c.pageSize)
    (hs : addr + data.size ≤ c.size) :
    Performs view faultless (p.programPage addr data) s [.program addr data]
      (fun _ e => e.busy = 0 ∧ e.latch = false) := by
  refine .bind_idle hp.writeEnable fun _ s₁ h₁ hv₁ => ?_
  refine .bind_idle hp.checkLatch ?_
  intro latch s₂ h₂ hstatus
  obtain ⟨rfl, hv₂⟩ := hstatus
  have hlatch : (view s₁).latch = true := by rw [hv₁]
  have he₂ := (he.after h₁).after h₂
  rw [if_pos hlatch]
  have hx : (view s₂).program addr data = _ :=
    Emulator.program_ok (by rw [hv₂]; exact hlatch) hpos (by rw [he₂.chip]; exact hpage)
      (by rw [he₂.size]; exact hs)
  refine .bind_last (hp.send (((view s₂).execute_pageProgram addr data).trans hx)
    (.program (by rw [he₂.chip]; exact hpage) (by rw [he₂.size]; exact hs))) ?_
  intro _ s₃ h₃ hsent
  refine (hp.waitReady programInterval (he₂.after h₃).busy).mono fun _ e _ hv₄ => ?_
  rw [hv₄, hsent.2]
  exact ⟨rfl, rfl⟩

theorem enableErase (hp : p.Carries view faultless) (f : EraseFunction) (addr : Nat) :
    Performs view faultless (p.enableErase f addr) s []
      (fun _ e => f.needsWriteEnable = true → e.latch = true) := by
  unfold Programmer.enableErase
  by_cases hf : f.needsWriteEnable = true
  · rw [if_pos hf]
    refine .bind_idle hp.writeEnable fun _ s₁ _ hv₁ => ?_
    refine .bind_idle hp.checkLatch ?_
    intro latch s₂ _ hstatus
    obtain ⟨rfl, hv₂⟩ := hstatus
    have hlatch : (view s₁).latch = true := by rw [hv₁]
    rw [if_pos hlatch]
    refine .pure fun _ => ?_
    rw [hv₂]
    exact hlatch
  · rw [if_neg hf]
    exact .pure fun h => absurd h hf

/-- What is erased begins at a multiple of its size, at or before the address that is sent. -/
theorem sendErase (hp : p.Carries view faultless) (he : (view s).Emulates c)
    (hk : Emulator.eraseSize? c f = some len) (hpos : 0 < len)
    (hs : addr - addr % len + len ≤ c.size) (hzero : f.erasesChip = true → addr = 0)
    (hl : f.needsWriteEnable = true → (view s).latch = true) :
    Performs view faultless (p.sendErase f addr) s [.erase f (addr - addr % len) len]
      (fun _ e => e.latch = false) := by
  rw [← he.size] at hs
  have hx := (view s).execute_erase f addr
  rw [Emulator.eraseAddress_eq hzero, Emulator.erase_ok hl (he.chip ▸ hk) hpos hs] at hx
  refine .mapError (.bind_last (hp.onError (hp.send hx (.erase hs))) ?_)
  intro _ s₁ _ hsent
  refine .pure ?_
  rw [hsent.2]
  rfl

theorem eraseRounded (hp : p.Carries view faultless) (he : (view s).Emulates c)
    (hk : Emulator.eraseSize? c f = some len) (hpos : 0 < len)
    (hs : addr - addr % len + len ≤ c.size) {asked : Nat}
    (hwhole : f.erasesChip = true → addr = 0 ∧ asked = c.size) :
    Performs view faultless (p.eraseBlock f addr asked c.size) s
      [.erase f (addr - addr % len) len] (fun _ e => e.busy = 0 ∧ e.latch = false) := by
  rw [eraseBlock_unguarded hwhole]
  refine .bind_idle (hp.enableErase _ _) fun _ s₁ h₁ hl => ?_
  refine .bind_last (hp.sendErase (he.after h₁) hk hpos hs (fun hf => (hwhole hf).1) hl)
    fun _ s₂ h₂ hl₂ => ?_
  refine (hp.waitReady _ ((he.after h₁).after h₂).busy).mono fun _ e _ hv => ?_
  rw [hv]
  exact ⟨rfl, hl₂⟩

/-- A block that its command erases is erased, whatever the latch was before. -/
theorem eraseBlock (hp : p.Carries view faultless) (he : (view s).Emulates c) (hb : b.Fits c) :
    Performs view faultless (p.eraseBlock b.function b.start b.size c.size) s [.ofBlock b]
      (fun _ e => e.busy = 0 ∧ e.latch = false) := by
  have hstart : b.start - b.start % b.size = b.start := by rw [hb.aligned, Nat.sub_zero]
  have h := hp.eraseRounded he hb.known hb.pos (by rw [hstart]; exact hb.inside) hb.whole
  rwa [hstart] at h

end Programmer.Carries
end NorFlash
