import NorFlash.Proofs.Lifetimes
import NorFlash.Proofs.Writing

namespace NorFlash

variable {σ τ ω μ ε α β γ : Type}

namespace Act

/-- Where the first element is found, in a state that the looks before it have left. -/
theorem first_eq_ok {I : σ → Prop} {f : γ → Act σ ε (Option β)} {xs : List γ} {s s' : σ} {x : γ}
    {b : β} (hI : ∀ x s, I s → I (f x s).2) (hs : I s)
    (h : first f xs s = (.ok (some (x, b)), s')) : ∃ t, I t ∧ f x t = (.ok (some b), s') := by
  induction xs generalizing s with
  | nil => cases h
  | cons y ys ih =>
    cases hy : f y s with
    | mk r t =>
      simp only [first, hy] at h
      cases r with
      | error e => cases h
      | ok found =>
        cases found with
        | some c =>
          cases h
          exact ⟨s, hs, hy⟩
        | none =>
          have ht := hI y s hs
          rw [hy] at ht
          exact ih ht h

end Act

namespace Programmer

variable {p : Programmer σ} {q : Programmer τ} {R : σ → τ → Prop} {s s' : σ} {c : Chip}
  {chips : List Chip} {name : String}

theorem probeChip_of_present (h : p.present c s = (.ok true, s')) :
    p.probeChip c s = (.ok true, s') := by
  unfold present Act.mapError at h
  cases hx : p.probeChip c s with
  | mk r t =>
    rw [hx] at h
    cases r with
    | ok a =>
      cases h
      rfl
    | error e => cases h

/-- A chip that is selected has answered, and after that only a message is told. -/
theorem selectChip_eq_ok (hp : p.Parallel R q) (hs : ∃ t, R s t)
    (h : p.selectChip chips name s = (.ok c, s')) :
    ∃ t t' m, (∃ u, R t u) ∧ p.probeChip c t = (.ok true, t') ∧ s' = p.note m t' := by
  unfold selectChip at h
  split at h
  · obtain ⟨found, t', hfound, hrest⟩ := Act.bind_eq_ok h
    cases found with
    | none => cases hrest
    | some found =>
      obtain ⟨c', _⟩ := found
      cases hrest
      have hkept : ∀ x s, (∃ t, R s t) →
          ∃ t, R ((p.present x >>= fun b => pure (if b then some () else none)) s).2 t := by
        rintro x s ⟨t, hst⟩
        exact ⟨_, ((Act.Mirrors.bind (hp.present x) fun b => .pure _) s t hst).2⟩
      obtain ⟨t, ht, hasked⟩ := Act.first_eq_ok hkept hs hfound
      obtain ⟨b, t'', hpresent, hb⟩ := Act.bind_eq_ok hasked
      cases b with
      | false => cases hb
      | true =>
        cases hb
        exact ⟨t, _, _, ht, probeChip_of_present hpresent, rfl⟩
  · unfold namedChip at h
    cases hfind : findChip? chips name with
    | none =>
      rw [hfind] at h
      cases h
    | some c' =>
      rw [hfind] at h
      obtain ⟨b, t', hpresent, hrest⟩ := Act.bind_eq_ok h
      cases b with
      | false => cases hrest
      | true =>
        cases hrest
        exact ⟨s, t', _, hs, probeChip_of_present hpresent, rfl⟩

end Programmer

/-- The call selects a chip, or is a run, which may do so. -/
def Call.Selects (shop : Workshop ω μ) (s : Session μ × ω) (call : Call) : Prop :=
  (∃ q, call = .run q) ∨
    ∃ name, call = .operation (.setChip name) ∧ (call.perform shop s).1 = .ok ()

namespace Session

variable {shop : Workshop ω μ} {w : ω} {calls : List Call} {call : Call} {n : Nat} {c : Chip}
  {name : String} {log : List Event} {s s' : Session (Nat × μ) × (ω × List Event)}

/-- The chip has answered its own probe on the programmer with the number, between two states of
the record. -/
def Answered (shop : Workshop ω μ) (n : Nat) (c : Chip) (log log' : List Event) : Prop :=
  ∃ t t', shop.watched.programmer.probeChip c t = (.ok true, t') ∧ t.1.1 = n ∧
    log <+: t.2.2 ∧ t'.2.2 = log'

/-- The latest of the calls to select a chip selected this one. It was made when the programmer
with the number was open, and the chip answered there. -/
inductive Selected (shop : Workshop ω μ) (w : ω) : List Call → Nat → Chip → Prop where
  | now {calls : List Call} {name : String} {o : Opened (Nat × μ)} {c : Chip}
      (hopen : (after shop.watched calls (w, [])).1.programmer = some o)
      (hok : (setChip shop.watched name (after shop.watched calls (w, []))).1 = .ok ())
      (hchip : (setChip shop.watched name (after shop.watched calls (w, []))).2.1.chip = some c)
      (hanswer : Answered shop o.handle.1 c (after shop.watched calls (w, [])).2.2
        (setChip shop.watched name (after shop.watched calls (w, []))).2.2.2) :
      Selected shop w (calls ++ [.operation (.setChip name)]) o.handle.1 c
  | later {calls : List Call} {call : Call} {n : Nat} {c : Chip} (h : Selected shop w calls n c)
      (hcall : ¬call.Selects shop.watched (after shop.watched calls (w, []))) :
      Selected shop w (calls ++ [call]) n c

theorem after_snoc (shop : Workshop ω μ) (calls : List Call) (call : Call) (w : ω) :
    after shop (calls ++ [call]) w = (call.perform shop (after shop calls w)).2 := by
  simp [after]

theorem Working.of_programmer {o : Opened (Nat × μ)} (h : Working s s')
    (ho : s'.1.programmer = some o) :
    (∃ o₀, s.1.programmer = some o₀ ∧ o₀.handle.1 = o.handle.1) ∧ s.1.chip = s'.1.chip := by
  cases h with
  | idle => cases ho
  | inUse driver args n h h' chip strategy w w' log cs =>
    cases ho
    exact ⟨⟨_, rfl, rfl⟩, rfl⟩

/-- A selection asks first, and changes the session only where it has found a chip. -/
theorem setChip_cases (shop : Workshop ω μ) (name : String) (s : Session μ × ω) :
    (∃ e s', withProgrammer (selecting shop name) s = (.error e, s') ∧
        setChip shop name s = (.error e, s')) ∨
      ∃ c s', withProgrammer (selecting shop name) s = (.ok c, s') ∧
        setChip shop name s = (.ok (), ({ s'.1 with chip := some c }, s'.2)) := by
  cases hx : withProgrammer (selecting shop name) s with
  | mk r s' =>
    cases r with
    | error e => exact .inl ⟨e, s', rfl, Act.bind_error hx⟩
    | ok c => exact .inr ⟨c, s', rfl, Act.bind_ok hx⟩

theorem aside_record {x : Act (ω × List Event) Failure α} {y : Act ω Failure α}
    (h : ∀ log, Act.Mirrors (Beside log) x y) (t : (Nat × μ) × (ω × List Event)) :
    (aside x t).2.2.2 = t.2.2 := by
  obtain ⟨handle, w, log⟩ := t
  obtain ⟨r, _, w', hx, _, rfl⟩ := (h log).ends (t := w) rfl
  simp only [aside, hx]
  cases r <;> rfl

theorem selecting_answered {args : String} {h : μ} {w : ω}
    {t : (Nat × μ) × (ω × List Event)}
    (hsel : selecting shop.watched name args ((n, h), (w, log)) = (.ok c, t)) :
    Answered shop n c log t.2.2 := by
  obtain ⟨c', t₁, hselect, hrest⟩ := Act.bind_eq_ok hsel
  obtain ⟨_, t₂, haside, hpure⟩ := Act.bind_eq_ok hrest
  cases hpure
  have hstart : InUse n log ((n, h), (w, log)) (h, w) := ⟨h, w, [], by simp, rfl⟩
  have hparallel : shop.watched.programmer.Parallel (InUse n log) shop.programmer :=
    shop.programmer.watched_parallel
  obtain ⟨u, u', m, ⟨_, hu⟩, hprobe, rfl⟩ :=
    Programmer.selectChip_eq_ok hparallel ⟨_, hstart⟩ hselect
  obtain ⟨handle, world, cs, rfl, rfl⟩ := hu
  refine ⟨_, u', hprobe, rfl, List.prefix_append _ _, ?_⟩
  have hvoltage : ∀ log, Act.Mirrors (Beside log) (checkVoltage shop.watched args c)
      (checkVoltage shop args c) := fun _ => checkVoltage_mirrors shop.files.watched_notes args c
  have hrecord := aside_record hvoltage (shop.watched.programmer.note m u')
  rw [haside] at hrecord
  exact hrecord.symm

theorem setChip_selected {o : Opened (Nat × μ)}
    (hwork : Working s (withProgrammer (selecting shop.watched name) s).2)
    (hok : (setChip shop.watched name s).1 = .ok ())
    (ho : (setChip shop.watched name s).2.1.programmer = some o)
    (hc : (setChip shop.watched name s).2.1.chip = some c) :
    ∃ o₀, s.1.programmer = some o₀ ∧ o₀.handle.1 = o.handle.1 ∧
      Answered shop o₀.handle.1 c s.2.2 (setChip shop.watched name s).2.2.2 := by
  rcases setChip_cases shop.watched name s with ⟨e, s', hx, hset⟩ | ⟨c', s', hx, hset⟩
  · rw [hset] at hok
    cases hok
  · rw [hset] at ho hc ⊢
    rw [hx] at hwork
    cases hc
    cases hwork with
    | idle => cases ho
    | inUse driver args n h h' chip strategy w w' log cs =>
      cases ho
      refine ⟨_, rfl, rfl, ?_⟩
      cases hsel : selecting shop.watched name args ((n, h), (w, log)) with
      | mk r t =>
        obtain ⟨⟨n', handle⟩, w', log'⟩ := t
        simp only [withProgrammer, hsel] at hx
        cases hx
        exact selecting_answered hsel

/-- Setting a programmer leaves no programmer or no chip. -/
theorem setProgrammer_forgets (shop : Workshop ω μ) (args : String) (s : Session μ × ω) :
    (setProgrammer shop args s).2.1.programmer = none ∨
      (setProgrammer shop args s).2.1.chip = none := by
  cases hs : shutdown shop s with
  | mk r s' =>
    cases r with
    | error e =>
      have hclosed := shutdown_programmer shop s
      rw [hs] at hclosed
      rw [setProgrammer, Act.bind_error hs]
      exact .inl hclosed
    | ok _ =>
      rw [setProgrammer_ok hs]
      rcases shop.openProgrammer args s'.2 with ⟨_ | _, _⟩ <;> exact .inr rfl

theorem run_programmer (shop : Workshop ω μ) (q : Queue) (s : Session μ × ω) :
    (q.run shop s).2.1.programmer = none :=
  shutdown_programmer shop _

theorem working_of_watched {t : Session μ × ω} (h : Watched s t) (shop : Workshop ω μ)
    (op : Operation) {path : String} (hop : op.path? = some path) :
    Working s (op.execute shop.watched s).2 :=
  (op.execute_atWork hop s s t ⟨h, .refl s⟩).2.2

theorem probing_of_watched {t : Session μ × ω} (h : Watched s t) (shop : Workshop ω μ)
    (name : String) :
    Working s (withProgrammer (selecting shop.watched name) s).2 :=
  (probing_mirrors name s t ⟨h, .refl s⟩).2.2

/-- A selection that fails leaves programmer, chip and strategy as they were. -/
theorem setChip_failed {t : Session μ × ω} {e : Halt Failure} (h : Watched s t)
    (hr : (setChip shop.watched name s).1 = .error e) :
    Working s (setChip shop.watched name s).2 := by
  have hwork := probing_of_watched h shop name
  rcases setChip_cases shop.watched name s with ⟨e', s', hx, hset⟩ | ⟨c', s', hx, hset⟩
  · rw [hx] at hwork
    rw [hset]
    exact hwork
  · rw [hset] at hr
    cases hr

/-- A chip beside a programmer was selected there. -/
theorem selected (shop : Workshop ω μ) (calls : List Call) (w : ω) (o : Opened (Nat × μ)) (c : Chip)
    (ho : (after shop.watched calls (w, [])).1.programmer = some o)
    (hc : (after shop.watched calls (w, [])).1.chip = some c) :
    Selected shop w calls o.handle.1 c := by
  induction calls using List.reverseRecOn generalizing o c with
  | nil => cases ho
  | append_singleton calls call ih =>
    have hw := after_watched shop calls w
    rw [after_snoc] at ho hc
    -- a call that only works leaves it to the calls before
    have hbefore (hwork : Working (after shop.watched calls (w, []))
          (call.perform shop.watched (after shop.watched calls (w, []))).2)
        (hcall : ¬call.Selects shop.watched (after shop.watched calls (w, []))) :
        Selected shop w (calls ++ [call]) o.handle.1 c := by
      obtain ⟨⟨o₀, ho₀, hn⟩, hchip⟩ := hwork.of_programmer ho
      rw [← hn]
      exact .later (ih o₀ c ho₀ (hchip.trans hc)) hcall
    cases call with
    | run q =>
      rw [Call.perform, run_programmer] at ho
      cases ho
    | shutdown =>
      rw [Call.perform, shutdown_programmer] at ho
      cases ho
    | operation op =>
      cases op with
      | read path =>
        exact hbefore (working_of_watched hw shop (.read path) rfl) (by simp [Call.Selects])
      | write path =>
        exact hbefore (working_of_watched hw shop (.write path) rfl) (by simp [Call.Selects])
      | verify path =>
        exact hbefore (working_of_watched hw shop (.verify path) rfl) (by simp [Call.Selects])
      | setStrategy x => exact .later (ih o c ho hc) (by simp [Call.Selects])
      | setProgrammer args =>
        rcases setProgrammer_forgets shop.watched args (after shop.watched calls (w, [])) with h | h
        · rw [Call.perform, Operation.execute, h] at ho
          cases ho
        · rw [Call.perform, Operation.execute, h] at hc
          cases hc
      | setChip name =>
        cases hr : (setChip shop.watched name (after shop.watched calls (w, []))).1 with
        | ok _ =>
          obtain ⟨o₀, ho₀, hn, hanswer⟩ :=
            setChip_selected (probing_of_watched hw shop name) hr ho hc
          rw [← hn]
          exact .now ho₀ hr hc hanswer
        | error e =>
          refine hbefore (setChip_failed hw hr) ?_
          simp [Call.Selects, Call.perform, Operation.execute, hr]

/-- Without a chip nothing is done on files. -/
theorem execute_chipless {shop : Workshop ω μ} {op : Operation} {path : String}
    (hop : op.path? = some path) {s : Session μ × ω} (hc : s.1.chip = none) :
    (op.execute shop s).2 = s := by
  obtain ⟨⟨programmer, chip, strategy⟩, w⟩ := s
  cases hc
  cases op with
  | read path => cases programmer <;> rfl
  | write path => cases programmer <;> rfl
  | verify path => cases programmer <;> rfl
  | setStrategy x => cases hop
  | setChip name => cases hop
  | setProgrammer args => cases hop

/-- What an operation on a file adds to the record are commands to the open programmer, for a chip
that was selected. -/
theorem execute_sends {t : Session μ × ω} (h : Watched s t) (shop : Workshop ω μ)
    (op : Operation) {path : String} (hop : op.path? = some path) :
    ∃ sent, (op.execute shop.watched s).2.2.2 = s.2.2 ++ sent ∧
      ∀ e ∈ sent, ∃ o c command, e = .executed o.handle.1 command ∧
        s.1.programmer = some o ∧ s.1.chip = some c := by
  cases hchip : s.1.chip with
  | none =>
    rw [execute_chipless hop hchip]
    exact ⟨[], by simp, by simp⟩
  | some c =>
    have hwork := working_of_watched h shop op hop
    generalize (op.execute shop.watched s).2 = s' at hwork ⊢
    cases hwork with
    | idle => exact ⟨[], by simp, by simp⟩
    | inUse driver args n handle handle' chip strategy w w' log cs =>
      refine ⟨cs.map (.executed n), rfl, fun e he => ?_⟩
      obtain ⟨command, _, rfl⟩ := List.mem_map.mp he
      exact ⟨⟨driver, args, (n, handle)⟩, c, command, rfl, rfl, rfl⟩

/-- Whatever a new session has been told, its chip was found on its programmer by the latest call
that selected a chip, so that reading, writing and verifying send commands only to a programmer
that the chip was found on; and a selection that fails leaves the session as it was. -/
theorem chip_probed (shop : Workshop ω μ) (calls : List Call) (w : ω) :
    let s := after shop.watched calls (w, [])
    (s.1.plain, s.2.1) = after shop calls w ∧
      (∀ o c, s.1.programmer = some o → s.1.chip = some c →
        Selected shop w calls o.handle.1 c) ∧
      (∀ (op : Operation) (path : String), op.path? = some path →
        ∃ sent, (op.execute shop.watched s).2.2.2 = s.2.2 ++ sent ∧
          ∀ e ∈ sent, ∃ n command c, e = .executed n command ∧ s.1.chip = some c ∧
            Selected shop w calls n c) ∧
      ∀ name e, (setChip shop.watched name s).1 = .error e →
        Working s (setChip shop.watched name s).2 := by
  intro s
  have hw : Watched s (after shop calls w) := after_watched shop calls w
  refine ⟨?_, selected shop calls w, fun op path hop => ?_, fun name e he => setChip_failed hw he⟩
  · obtain ⟨p, chip, strategy, w', log, hs, ht, _⟩ := hw
    rw [hs, ht]
    rfl
  · obtain ⟨sent, hrecord, hsent⟩ := execute_sends hw shop op hop
    refine ⟨sent, hrecord, fun e he => ?_⟩
    obtain ⟨o, c, command, hcommand, ho, hc⟩ := hsent e he
    exact ⟨o.handle.1, command, c, hcommand, hc, selected shop calls w o c ho hc⟩

end Session

/-- A workshop with one programmer, an emulation of the sample chip, and no files. -/
def Workshop.sample : Workshop Unit Emulator where
  drivers := [⟨"dummy", fun _ => Act.ofExcept (.ok Emulator.sample)⟩]
  programmer :=
    { maxRead := fun (e, _) => e.maxRead
      maxWrite := fun (e, _) => e.maxWrite
      execute := fun c (e, w) =>
        match e.execute c with
        | (r, e) => (r, (e, w))
      delay := fun _ s => s
      report := fun _ s => s
      note := fun _ s => s }
  close _ := pure ()
  catalog := [Chip.sample]
  files := ⟨fun _ => Act.fail .notFound, fun _ _ => Act.fail .notFound, fun _ w => w⟩

/-- The second of two programmers is asked for the chip again. -/
theorem Session.chip_probed_sample :
    let calls : List Call := [.operation (.setProgrammer "dummy"), .operation (.setChip "sample"),
      .operation (.setProgrammer "automatic"), .operation (.setChip "automatic")]
    ∃ o, (Session.after Workshop.sample.watched calls ((), [])).1.programmer = some o ∧
      o.handle.1 = 1 ∧ Session.Selected Workshop.sample () calls 1 Chip.sample := by
  intro calls
  have ho : ((Session.after Workshop.sample.watched calls ((), [])).1.programmer.map
      (·.handle.1)) = some 1 := by
    decide +kernel
  have hc : (Session.after Workshop.sample.watched calls ((), [])).1.chip = some Chip.sample := by
    decide +kernel
  obtain ⟨o, ho, hn⟩ := Option.map_eq_some_iff.mp ho
  obtain ⟨_, hselected, _, _⟩ := Session.chip_probed Workshop.sample calls ()
  exact ⟨o, ho, hn, hn ▸ hselected o Chip.sample ho hc⟩

end NorFlash
