import NorFlash.Proofs.Prompt
import NorFlash.Proofs.Safeguards
import NorFlash.Proofs.Writing

namespace NorFlash

/-- The programmer with a record of its waits in microseconds, the latest last. -/
def Programmer.timed {σ : Type} (p : Programmer σ) : Programmer (σ × List Nat) where
  maxRead s := p.maxRead s.1
  maxWrite s := p.maxWrite s.1
  execute c s :=
    match p.execute c s.1 with
    | (r, s') => (r, (s', s.2))
  delay n s := (p.delay n s.1, s.2 ++ [n])
  report e s := (p.report e s.1, s.2)
  note n s := (p.note n s.1, s.2)
  patience := p.patience

/-- A run beside one record is the run without it. -/
theorem Act.Mirrors.beside {σ ρ ε α : Type} {log : List ρ} {x : Act (σ × List ρ) ε α}
    {y : Act σ ε α} (h : Mirrors (Beside log) x y) {r : Except ε α} {s s' : σ}
    (hy : y s = (r, s')) : x (s, log) = (r, (s', log)) := by
  obtain ⟨hr, hs⟩ := h (s, log) s rfl
  rw [hy] at hr hs
  exact Prod.ext hr hs

namespace Programmer

variable {σ : Type} {p : Programmer σ} {s s' : σ} {c : Command} {f : EraseFunction} {addr : Nat}
  {reply : Bytes}

/-- To record the waits makes no difference. -/
theorem timed_parallel (p : Programmer σ) : p.timed.Parallel (fun s t => s.1 = t) p where
  execute c := by
    rintro s _ rfl
    exact ⟨rfl, rfl⟩
  delay n := by
    rintro s _ rfl
    rfl
  report e := by
    rintro s _ rfl
    rfl
  note n := by
    rintro s _ rfl
    rfl
  maxRead := by
    rintro s _ rfl
    rfl
  maxWrite := by
    rintro s _ rfl
    rfl
  patience := rfl

theorem send_eq_ok (h : p.send c s = (.ok reply, s')) : ∃ r, p.execute c s = (.ok r, s') := by
  unfold send at h
  cases hx : p.execute c s with
  | mk r t =>
    rw [hx] at h
    cases r with
    | ok r =>
      cases h
      exact ⟨r, rfl⟩
    | error e => cases h

/-- An erase ends well just if it was sent. -/
theorem sendErase_eq_ok : p.sendErase f addr s = (.ok (), s') ↔
    ∃ reply, p.send (eraseCommand f addr) s = (.ok reply, s') := by
  simp only [sendErase, onError, Act.mapError, Act.bind_apply, Act.onError]
  cases p.send (eraseCommand f addr) s with
  | mk r t => cases r <;> simp [Act.pure_apply]

variable (p) (log : List Nat)

theorem timed_send (c : Command) : Act.Mirrors (Beside log) (p.timed.send c) (p.send c) := by
  refine .send ?_
  rintro _ s rfl
  exact ⟨rfl, rfl⟩

theorem timed_readStatus : Act.Mirrors (Beside log) p.timed.readStatus p.readStatus :=
  .bind (p.timed_send log _) fun _ => .pure _

theorem timed_writeEnable : Act.Mirrors (Beside log) p.timed.writeEnable p.writeEnable :=
  .bind (p.timed_send log _) fun _ => .pure _

theorem timed_checkLatch : Act.Mirrors (Beside log) p.timed.checkLatch p.checkLatch :=
  .bind (p.timed_readStatus log) fun _ => .pure _

theorem timed_enableErase (f : EraseFunction) (addr : Nat) :
    Act.Mirrors (Beside log) (p.timed.enableErase f addr) (p.enableErase f addr) := by
  unfold enableErase
  split
  · refine .bind (p.timed_writeEnable log) fun _ => .bind (p.timed_checkLatch log) fun latch => ?_
    split
    · exact .pure ()
    · exact .fail _
  · exact .pure ()

end Programmer

namespace Emulator

variable {e e' : Emulator} {c : Command} {f : EraseFunction} {addr len interval : Nat}
  {data : Bytes} {r : Except Stop Bytes}

/-- A program or an erase is under way: all its busy answers are still to come. -/
structure Begun (e e' : Emulator) : Prop where
  latch : e'.latch = false
  busyPolls : e'.busyPolls = e.busyPolls
  busy : e'.busy = e.busyPolls

/-- Busy answers come from the count before, or from a program or erase. -/
structure Counted (e e' : Emulator) : Prop where
  busyPolls : e'.busyPolls = e.busyPolls
  busy : e'.busy ≤ max e.busy e.busyPolls

theorem Counted.refl (e : Emulator) : e.Counted e := ⟨rfl, Nat.le_max_left _ _⟩

theorem Begun.counted (h : e.Begun e') : e.Counted e' :=
  ⟨h.busyPolls, h.busy ▸ Nat.le_max_right _ _⟩

theorem begun_settle (g : Bytes → Bytes) (entry : Entry) : e.Begun (e.settle g entry) :=
  ⟨rfl, rfl, rfl⟩

theorem program_begun (h : program addr data e = (r, e')) :
    e' = e ∧ (∃ stop, r = .error stop) ∨ e.Begun e' := by
  unfold program at h
  dsimp only at h
  split at h
  · cases h
    exact .inl ⟨rfl, _, rfl⟩
  · split at h
    · cases h
      exact .inl ⟨rfl, _, rfl⟩
    · split at h
      · cases h
        exact .inl ⟨rfl, _, rfl⟩
      · cases h
        exact .inr (begun_settle _ _)

theorem erase_begun (h : erase f addr e = (r, e')) :
    e' = e ∧ (∃ stop, r = .error stop) ∨ e.Begun e' := by
  unfold erase at h
  split at h
  · cases h
    exact .inl ⟨rfl, _, rfl⟩
  · split at h
    · cases h
      exact .inl ⟨rfl, _, rfl⟩
    · unfold eraseCells at h
      dsimp only at h
      split at h
      · cases h
        exact .inl ⟨rfl, _, rfl⟩
      · split at h
        · cases h
          exact .inl ⟨rfl, _, rfl⟩
        · cases h
          exact .inr (begun_settle _ _)

theorem counted_of_begun (h : e' = e ∧ (∃ stop, r = .error stop) ∨ e.Begun e') :
    e.Counted e' := by
  rcases h with ⟨rfl, _⟩ | h
  · exact .refl _
  · exact h.counted

theorem common?_counted {x : Act Emulator Stop Bytes} (h : common? c = some x) :
    e.Counted (x e).2 := by
  unfold common? at h
  split_ifs at h <;> cases h
  · exact .refl e
  · refine ⟨rfl, ?_⟩
    change e.busy - 1 ≤ _
    omega
  · exact ⟨rfl, Nat.le_max_left _ _⟩
  · exact ⟨rfl, Nat.le_max_left _ _⟩
  · unfold read
    split
    · exact .refl e
    · exact ⟨rfl, Nat.le_max_left _ _⟩
  · exact counted_of_begun (program_begun rfl)

theorem execute_counted (c : Command) (e : Emulator) : e.Counted (execute c e).2 := by
  unfold execute
  cases hx : common? c with
  | some x => exact common?_counted hx
  | none =>
    cases EraseFunction.ofOpcode? c.opcode with
    | some f => exact counted_of_begun (erase_begun rfl)
    | none => exact .refl e

/-- A program or an erase is busy for `n` answers, and 32 bits hold both counters. -/
structure Slow (n : Nat) (e : Emulator) : Prop where
  busyPolls : e.busyPolls = n
  bound : n < endlessPolls
  busy : e.busy < endlessPolls

theorem Slow.counted {n : Nat} (h : e.Slow n) (hc : e.Counted e') : e'.Slow n := by
  refine ⟨hc.busyPolls.trans h.busyPolls, h.bound, ?_⟩
  have hle := hc.busy
  have hbound := h.bound
  have hbusy := h.busy
  rw [h.busyPolls] at hle
  omega

theorem readStatus_eq (e : Emulator) :
    programmer.readStatus e = (.ok e.status, { e with busy := e.busy - 1 }) := rfl

/-- Each busy answer is followed by one wait, and the answer after them ends the loop. -/
theorem timed_pollReady (e : Emulator) (log : List Nat) {polls : Nat} (h : e.busy < polls) :
    programmer.timed.pollReady interval polls (e, log) =
      (.ok (), ({ e with busy := 0 }, log ++ List.replicate e.busy interval)) := by
  induction polls generalizing e log with
  | zero => omega
  | succ polls ih =>
    have hstatus := (programmer.timed_readStatus log).beside e.readStatus_eq
    rw [Programmer.pollReady_succ, Act.bind_ok hstatus, status_busy]
    cases hb : e.busy with
    | zero =>
      rw [if_pos (by decide), List.replicate_zero, List.append_nil]
      rfl
    | succ n =>
      -- The answer was busy: it is gone from the count, and the wait after it is on record.
      have hlater := ih { e with busy := n } (log ++ [interval]) (by simp only; omega)
      rw [if_neg (by simp), Nat.add_sub_cancel]
      refine (Act.bind_ok rfl).trans (hlater.trans ?_)
      rw [List.replicate_succ, List.append_assoc, List.singleton_append]

/-- A wait ends after as many delays as there are busy answers to come. -/
theorem timed_waitReady (h : e.busy < endlessPolls) (interval : Nat) (log : List Nat) :
    programmer.timed.waitReady interval (e, log) =
      (.ok (), ({ e with busy := 0 }, log ++ List.replicate e.busy interval)) :=
  e.timed_pollReady log h

theorem waitReady_eq (h : e.busy < endlessPolls) (interval : Nat) :
    programmer.waitReady interval e = (.ok (), { e with busy := 0 }) := by
  obtain ⟨hr, hs⟩ := programmer.timed_parallel.waitReady interval (e, []) e rfl
  rw [timed_waitReady h] at hr hs
  exact Prod.ext hr.symm hs.symm

/-- No command stalls, and no counter grows beyond what one program or erase sets. -/
theorem programmer_prompt (n : Nat) : programmer.Prompt (Slow n) where
  execute c e he := ⟨he.counted (execute_counted c e), fun h => answers_no_stall ⟨c, e, h⟩⟩
  delay _ _ he := he
  report _ _ he := he
  note _ _ he := he
  waitReady interval e he := by
    rw [waitReady_eq he.busy]
    exact ⟨⟨he.busyPolls, he.bound, Nat.two_pow_pos 32⟩, nofun⟩

theorem program_sent {reply : Bytes}
    (h : programmer.send (.writeAt Opcode.pageProgram addr data) e = (.ok reply, e')) :
    e.Begun e' := by
  obtain ⟨r, hr⟩ := Programmer.send_eq_ok h
  rcases program_begun ((e.execute_pageProgram addr data).symm.trans hr) with ⟨_, _, hstop⟩ | h
  · cases hstop
  · exact h

theorem erase_sent (h : programmer.sendErase f addr e = (.ok (), e')) : e.Begun e' := by
  obtain ⟨_, hsend⟩ := Programmer.sendErase_eq_ok.mp h
  obtain ⟨r, hr⟩ := Programmer.send_eq_ok hsend
  rcases erase_begun ((e.execute_erase f addr).symm.trans hr) with ⟨_, _, hstop⟩ | h
  · cases hstop
  · exact h

/-- The wait for what was begun takes all the busy answers of it, and the chip is idle then. -/
theorem Begun.waited {n : Nat} {e'' : Emulator} (h : e.Begun e') (he : e.Slow n)
    (hw : programmer.waitReady interval e' = (.ok (), e'')) (log : List Nat) :
    e''.busy = 0 ∧ e''.latch = false ∧ programmer.timed.waitReady interval (e', log) =
      (.ok (), (e'', log ++ List.replicate n interval)) := by
  have hn : e'.busy = n := h.busy.trans he.busyPolls
  have hbusy : e'.busy < endlessPolls := hn ▸ he.bound
  rw [waitReady_eq hbusy] at hw
  cases hw
  refine ⟨rfl, h.latch, ?_⟩
  rw [timed_waitReady hbusy, hn]

theorem programPage_waits {n : Nat} (he : e.Slow n)
    (h : programmer.programPage addr data e = (.ok (), e')) (log : List Nat) :
    e'.busy = 0 ∧ e'.latch = false ∧ programmer.timed.programPage addr data (e, log) =
      (.ok (), (e', log ++ List.replicate n Programmer.programInterval)) := by
  have hp := programmer_prompt n
  obtain ⟨_, e₁, hset, h⟩ := Act.bind_eq_ok h
  obtain ⟨latch, e₂, hlatch, h⟩ := Act.bind_eq_ok h
  -- The look at the latch may take a busy answer that was left over, but waits for none.
  have he₂ := hp.checkLatch.keeps (hp.writeEnable.keeps he hset) hlatch
  cases latch with
  | false => cases h
  | true =>
    obtain ⟨reply, e₃, hsent, hwait⟩ := Act.bind_eq_ok h
    obtain ⟨hidle, hclear, htimed⟩ := (program_sent hsent).waited he₂ hwait log
    refine ⟨hidle, hclear, ?_⟩
    refine (Act.bind_ok ((programmer.timed_writeEnable log).beside hset)).trans ?_
    refine (Act.bind_ok ((programmer.timed_checkLatch log).beside hlatch)).trans ?_
    exact (Act.bind_ok ((programmer.timed_send log _).beside hsent)).trans htimed

theorem eraseBlock_waits {n chipSize : Nat} (he : e.Slow n)
    (h : programmer.eraseBlock f addr len chipSize e = (.ok (), e')) (log : List Nat) :
    e'.busy = 0 ∧ e'.latch = false ∧ programmer.timed.eraseBlock f addr len chipSize (e, log) =
      (.ok (), (e', log ++ List.replicate n f.pollInterval)) := by
  unfold Programmer.eraseBlock at h ⊢
  split at h
  -- An instruction for the whole chip that is asked for less does not end well.
  case isTrue => cases h
  case isFalse hguard =>
    obtain ⟨_, e₁, henable, h⟩ := Act.bind_eq_ok h
    obtain ⟨_, e₂, hsent, hwait⟩ := Act.bind_eq_ok h
    have he₁ := ((programmer_prompt n).enableErase f addr).keeps he henable
    obtain ⟨hidle, hclear, htimed⟩ := (erase_sent hsent).waited he₁ hwait log
    obtain ⟨reply, hsend⟩ := Programmer.sendErase_eq_ok.mp hsent
    have hsent' : programmer.timed.sendErase f addr (e₁, log) = (.ok (), (e₂, log)) :=
      Programmer.sendErase_eq_ok.mpr ⟨reply, (programmer.timed_send log _).beside hsend⟩
    refine ⟨hidle, hclear, ?_⟩
    rw [if_neg hguard]
    refine (Act.bind_ok ((programmer.timed_enableErase log f addr).beside henable)).trans ?_
    exact (Act.bind_ok hsent').trans htimed

/-- Where both counters of an emulated chip fit 32 bits, a page that is programmed and a block that
is erased were waited for once with each busy answer, and the chip is idle after it with its latch
clear; a wait ends after as many delays as there are busy answers left; and so every read, write and
erase comes to an end, for whatever chip it is meant. -/
theorem waits_end (hpolls : e.busyPolls < endlessPolls) (hbusy : e.busy < endlessPolls)
    (log : List Nat) :
    (∀ addr data e', programmer.programPage addr data e = (.ok (), e') →
      e'.busy = 0 ∧ e'.latch = false ∧ programmer.timed.programPage addr data (e, log) =
        (.ok (), (e', log ++ List.replicate e.busyPolls 10))) ∧
      (∀ f addr len chipSize e', programmer.eraseBlock f addr len chipSize e = (.ok (), e') →
        e'.busy = 0 ∧ e'.latch = false ∧ programmer.timed.eraseBlock f addr len chipSize (e, log) =
          (.ok (), (e', log ++ List.replicate e.busyPolls f.pollInterval))) ∧
      (∀ interval, programmer.timed.waitReady interval (e, log) =
        (.ok (), ({ e with busy := 0 }, log ++ List.replicate e.busy interval))) ∧
      ∀ c : Chip,
        (∀ addr len, (programmer.readChunked c addr len e).1 ≠ .error .stalled) ∧
        (∀ addr data, (programmer.writeChunked c addr data e).1 ≠ .error .stalled) ∧
        (∀ start len exact, (programmer.erase c start len exact e).1 ≠ .error .stalled) ∧
        ∀ strategy start data, (programmer.write c strategy start data e).1 ≠ .error .stalled := by
  have he : e.Slow e.busyPolls := ⟨rfl, hpolls, hbusy⟩
  have hp := programmer_prompt e.busyPolls
  refine ⟨fun addr data e' h => programPage_waits he h log,
    fun f addr len chipSize e' h => eraseBlock_waits he h log,
    fun interval => timed_waitReady hbusy interval log, fun c => ⟨?_, ?_, ?_, ?_⟩⟩
  · exact fun addr len => (hp.readChunked c addr len e he).2
  · exact fun addr data => (hp.writeChunked c addr data e he).2
  · exact fun start len exact => (hp.erase c start len exact e he).2
  · exact fun strategy start data => (hp.write c strategy start data e he).2

/-- A chip that is busy for two answers is waited for twice, for each instruction at its own pace,
and a write to it ends. -/
theorem waits_end_sample :
    let data := Bytes.filled 2 0x0F
    let b : Block := ⟨⟨0, 8, 4, .eraseD8⟩, 1⟩
    (∃ e', programmer.programPage 4 data sample = (.ok (), e') ∧ e'.busy = 0 ∧ e'.latch = false ∧
      programmer.timed.programPage 4 data (sample, []) = (.ok (), (e', [10, 10]))) ∧
      (∃ e', programmer.eraseBlock b.function b.start b.size Chip.sample.size sample =
          (.ok (), e') ∧ e'.busy = 0 ∧ e'.latch = false ∧
        programmer.timed.eraseBlock b.function b.start b.size Chip.sample.size (sample, []) =
          (.ok (), (e', [100000, 100000]))) ∧
      (programmer.write Chip.sample .wipeIfChanges 6 data sample).1 ≠ .error .stalled := by
  intro data b
  have hp := programmer_carries True
  obtain ⟨hprogram, herase, _, hends⟩ := waits_end (e := sample) (by decide) (by decide) []
  refine ⟨?_, ?_, (hends Chip.sample).2.2.2 _ _ _⟩
  · have hpage : Performs id True (programmer.programPage 4 data) sample [.program 4 data] _ :=
      hp.programPage sample_emulates (by decide) (by decide) (by decide)
    obtain ⟨_, e', hrun, _⟩ := hpage.exists_ok trivial
    exact ⟨e', hrun, hprogram 4 data e' hrun⟩
  · have hfits : b.Fits Chip.sample := ⟨by decide, by decide, by decide, by decide, by decide⟩
    obtain ⟨_, e', hrun, _⟩ := (hp.eraseBlock sample_emulates hfits).exists_ok trivial
    exact ⟨e', hrun, herase _ _ _ _ e' hrun⟩

end Emulator
end NorFlash
