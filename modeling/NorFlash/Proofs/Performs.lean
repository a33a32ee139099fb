import NorFlash.Proofs.Content
import NorFlash.Proofs.CellOperation

namespace NorFlash

/-- `e'` is `e` after the operations. Latch and busy count are left open, but the busy count never
grows past what a program or erase sets. -/
structure Emulator.After (e : Emulator) (ops : List CellOperation) (e' : Emulator) : Prop where
  chip : e'.chip = e.chip
  busyPolls : e'.busyPolls = e.busyPolls
  maxRead : e'.maxRead = e.maxRead
  maxWrite : e'.maxWrite = e.maxWrite
  size : e'.cells.size = e.cells.size
  content : e'.cells.byteAt = CellOperation.effects ops e.cells.byteAt
  journal : e'.journal.toList = e.journal.toList ++ ops.map CellOperation.entry
  busy : e'.busy ≤ max e.busy e.busyPolls

/-- An emulation of `c` by a machine that counts its busy answers in 32 bits. -/
structure Emulator.Emulates (e : Emulator) (c : Chip) : Prop where
  chip : e.chip = c
  size : e.cells.size = c.size
  busyPolls : e.busyPolls < endlessPolls
  busy : e.busy < endlessPolls

namespace Emulator

variable {e e' e'' : Emulator} {ops ops' : List CellOperation} {chip : Chip}

theorem After.refl (e : Emulator) : e.After [] e :=
  ⟨rfl, rfl, rfl, rfl, rfl, rfl, by simp, Nat.le_max_left _ _⟩

theorem After.trans (h : e.After ops e') (h' : e'.After ops' e'') : e.After (ops ++ ops') e'' := by
  refine ⟨h'.chip.trans h.chip, h'.busyPolls.trans h.busyPolls, h'.maxRead.trans h.maxRead,
    h'.maxWrite.trans h.maxWrite, h'.size.trans h.size, ?_, ?_, ?_⟩
  · rw [h'.content, h.content, CellOperation.effects_append]
  · rw [h'.journal, h.journal, List.map_append, List.append_assoc]
  · have h₁ := h.busy
    have h₂ := h'.busy
    rw [h.busyPolls] at h₂
    omega

theorem Emulates.after (h : e.Emulates chip) (ha : e.After ops e') : e'.Emulates chip := by
  refine ⟨ha.chip.trans h.chip, ha.size.trans h.size, ?_, ?_⟩
  · rw [ha.busyPolls]
    exact h.busyPolls
  · have := ha.busy
    have := h.busy
    have := h.busyPolls
    omega

/-- Nothing but latch and busy count have changed. -/
theorem After.idle (latch : Bool) {busy : Nat} (h : busy ≤ e.busy) :
    e.After [] { e with latch := latch, busy := busy } :=
  ⟨rfl, rfl, rfl, rfl, rfl, rfl, by simp, by simp only; omega⟩

/-- Without operations the cells are what they were. -/
theorem After.cells_eq (h : e.After [] e') : e'.cells = e.cells :=
  Bytes.ext_byteAt h.size fun i _ => congrFun h.content i

end Emulator

variable {σ α β : Type} {p : Programmer σ} {view : σ → Emulator} {faultless : Prop} {s : σ}
  {ops ops' : List CellOperation}

/-- The programmer carries each command to the chip that `view` shows, or refuses it on the way. It
refuses none if it is faultless. All else that it does leaves the chip alone. -/
structure Programmer.Carries (p : Programmer σ) (view : σ → Emulator) (faultless : Prop) :
    Prop where
  execute : ∀ c s,
    ((p.execute c s).1 = ((view s).execute c).1 ∧
      view (p.execute c s).2 = ((view s).execute c).2) ∨
    (¬faultless ∧ (∃ e, (p.execute c s).1 = .error e) ∧ view (p.execute c s).2 = view s)
  delay : ∀ n s, view (p.delay n s) = view s
  report : ∀ e s, view (p.report e s) = view s
  note : ∀ n s, view (p.note n s) = view s
  maxRead : ∀ s, p.maxRead s = (view s).maxRead
  maxWrite : ∀ s, p.maxWrite s = (view s).maxWrite
  patience : p.patience = endlessPolls

theorem Programmer.Carries.quiet (hp : p.Carries view faultless) :
    p.quiet.Carries view faultless :=
  ⟨hp.execute, hp.delay, fun _ _ => rfl, hp.note, hp.maxRead, hp.maxWrite, hp.patience⟩

theorem Emulator.programmer_carries (faultless : Prop) :
    Emulator.programmer.Carries id faultless :=
  ⟨fun _ _ => .inl ⟨rfl, rfl⟩, fun _ _ => rfl, fun _ _ => rfl, fun _ _ => rfl, fun _ => rfl,
    fun _ => rfl, rfl⟩

/-- The step performs `ops` on the chip. Where it ends well it has performed all of them and `r`
holds of its value and of the chip; where it stops it has performed some first part of them, and
the way to the chip is not faultless. -/
inductive Performs (view : σ → Emulator) (faultless : Prop) (x : Act σ Stop α) (s : σ)
    (ops : List CellOperation) (r : α → Emulator → Prop) : Prop where
  | ended {a : α} {s' : σ} (hx : x s = (.ok a, s')) (ha : (view s).After ops (view s'))
      (hr : r a (view s'))
  | stopped {e : Stop} {s' : σ} {done : List CellOperation} (hx : x s = (.error e, s'))
      (hf : ¬faultless) (hd : done <+: ops) (ha : (view s).After done (view s'))

/-- The step gives a value and leaves the chip alone. -/
abbrev Gives (view : σ → Emulator) (faultless : Prop) (x : Act σ Stop α) (s : σ) (a : α) : Prop :=
  Performs view faultless x s [] fun b e => b = a ∧ e = view s

namespace Performs

variable {x : Act σ Stop α} {f : α → Act σ Stop β} {r : α → Emulator → Prop}
  {r' : β → Emulator → Prop} {a : α} {s' : σ}

theorem pure (hr : r a (view s)) : Performs view faultless (Pure.pure a) s [] r :=
  .ended (Act.pure_apply a s) (.refl _) hr

/-- A step after a step performs the operations of both, in order. -/
theorem bind (hx : Performs view faultless x s ops r)
    (hf : ∀ a s', (view s).After ops (view s') → r a (view s') →
      Performs view faultless (f a) s' ops' r') :
    Performs view faultless (x >>= f) s (ops ++ ops') r' := by
  cases hx with
  | ended hxs ha hr =>
    cases hf _ _ ha hr with
    | ended hfs ha' hr' => exact .ended ((Act.bind_ok hxs).trans hfs) (ha.trans ha') hr'
    | stopped hfs hfault hd ha' =>
      exact .stopped ((Act.bind_ok hxs).trans hfs) hfault
        ((List.prefix_append_right_inj ops).mpr hd) (ha.trans ha')
  | stopped hxs hfault hd ha =>
    exact .stopped (Act.bind_error hxs) hfault (hd.trans (List.prefix_append ops ops')) ha

/-- The first step performs nothing. -/
theorem bind_idle (hx : Performs view faultless x s [] r)
    (hf : ∀ a s', (view s).After [] (view s') → r a (view s') →
      Performs view faultless (f a) s' ops r') :
    Performs view faultless (x >>= f) s ops r' :=
  bind hx hf

/-- The first step gives a value, and the next one goes on with it. -/
theorem bind_value (hx : Gives view faultless x s a)
    (hf : ∀ s', view s' = view s → Performs view faultless (f a) s' ops r') :
    Performs view faultless (x >>= f) s ops r' := by
  refine bind_idle hx fun b s' _ h => ?_
  obtain ⟨rfl, hv⟩ := h
  exact hf s' hv

/-- The last step performs nothing. -/
theorem bind_last (hx : Performs view faultless x s ops r)
    (hf : ∀ a s', (view s).After ops (view s') → r a (view s') →
      Performs view faultless (f a) s' [] r') :
    Performs view faultless (x >>= f) s ops r' := by
  have h := bind hx hf
  rwa [List.append_nil] at h

theorem mono {q : α → Emulator → Prop} (hx : Performs view faultless x s ops r)
    (h : ∀ a e, (view s).After ops e → r a e → q a e) : Performs view faultless x s ops q := by
  cases hx with
  | ended hxs ha hr => exact .ended hxs ha (h _ _ ha hr)
  | stopped hxs hfault hd ha => exact .stopped hxs hfault hd ha

/-- However it ends, a step has performed some first part of its operations. -/
theorem exists_prefix (hx : Performs view faultless x s ops r) :
    ∃ done, done <+: ops ∧ (view s).After done (view (x s).2) := by
  cases hx with
  | ended hxs ha hr =>
    rw [hxs]
    exact ⟨ops, List.prefix_rfl, ha⟩
  | stopped hxs hfault hd ha =>
    rw [hxs]
    exact ⟨_, hd, ha⟩

theorem size_eq (hx : Performs view faultless x s ops r) :
    (view (x s).2).cells.size = (view s).cells.size := by
  obtain ⟨done, _, ha⟩ := hx.exists_prefix
  exact ha.size

/-- On a faultless way nothing stops. -/
theorem exists_ok (hx : Performs view faultless x s ops r) (hf : faultless) :
    ∃ a s', x s = (.ok a, s') ∧ (view s).After ops (view s') ∧ r a (view s') := by
  cases hx with
  | ended hxs ha hr => exact ⟨_, _, hxs, ha, hr⟩
  | stopped hxs hfault => exact absurd hf hfault

theorem mapError {g : Stop → Stop} (hx : Performs view faultless x s ops r) :
    Performs view faultless (x.mapError g) s ops r := by
  cases hx with
  | ended hxs ha hr => exact .ended (by rw [Act.mapError, hxs]) ha hr
  | stopped hxs hfault hd ha => exact .stopped (by rw [Act.mapError, hxs]) hfault hd ha

/-- A fold performs the operations of its steps one after another. `inv` says what has become of
the value when some first part of the list is done. -/
theorem fold {f : β → α → Act σ Stop β} {each : α → List CellOperation} {xs : List α} {b : β}
    (inv : List α → β → Prop) (h₀ : inv [] b)
    (hstep : ∀ pre x b s', x ∈ xs → inv pre b → (view s).After (pre.flatMap each) (view s') →
      Performs view faultless (f b x) s' (each x) (fun b' _ => inv (pre ++ [x]) b')) :
    Performs view faultless (Act.fold f b xs) s (xs.flatMap each) (fun b' _ => inv xs b') := by
  suffices h : ∀ post pre b s', xs = pre ++ post → inv pre b →
      (view s).After (pre.flatMap each) (view s') →
      Performs view faultless (Act.fold f b post) s' (post.flatMap each) (fun b' _ => inv xs b') by
    exact h xs [] b s rfl h₀ (.refl _)
  intro post
  induction post with
  | nil =>
    intro pre b s' hxs hinv _
    rw [List.append_nil] at hxs
    subst hxs
    exact .ended rfl (.refl _) hinv
  | cons x post ih =>
    intro pre b s' hxs hinv ha
    have hx : x ∈ xs := by simp [hxs]
    rw [Act.fold_cons, List.flatMap_cons]
    refine bind (hstep pre x b s' hx hinv ha) fun b' s'' ha' hinv' => ?_
    refine ih (pre ++ [x]) b' s'' (by simp [hxs]) hinv' ?_
    rw [List.flatMap_append, List.flatMap_singleton]
    exact ha.trans ha'

/-- No step of the fold performs anything. -/
theorem fold_idle {f : β → α → Act σ Stop β} {xs : List α} {b : β} (inv : List α → β → Prop)
    (h₀ : inv [] b)
    (hstep : ∀ pre x b s', x ∈ xs → inv pre b →
      Performs view faultless (f b x) s' [] (fun b' _ => inv (pre ++ [x]) b')) :
    Performs view faultless (Act.fold f b xs) s [] (fun b' _ => inv xs b') := by
  have h : Performs view faultless (Act.fold f b xs) s (xs.flatMap fun _ => [])
      (fun b' _ => inv xs b') :=
    fold inv h₀ fun pre x b s' hx hinv _ => hstep pre x b s' hx hinv
  rwa [List.flatMap_eq_nil_iff.mpr fun _ _ => rfl] at h

end Performs

namespace Gives

variable {a : α}

theorem of_ok {x : Act σ Stop α} {s' : σ} (hx : x s = (.ok a, s')) (hv : view s' = view s) :
    Gives view faultless x s a := by
  refine .ended hx ?_ ⟨rfl, hv⟩
  rw [hv]
  exact .refl _

theorem modify {g : σ → σ} (hg : view (g s) = view s) :
    Gives view faultless (Act.modify g) s () :=
  of_ok (Act.modify_apply g s) hg

theorem read {g : σ → α} : Gives view faultless (Act.read g) s (g s) :=
  of_ok (Act.read_apply g s) rfl

theorem lift : Gives view faultless (Stop.lift (.ok a)) s a := of_ok rfl rfl

theorem require : Gives view faultless (Stop.require (some a)) s a := of_ok rfl rfl

theorem word {n bound : Nat} (h : n < bound) :
    Gives view faultless (Stop.word n bound) s n :=
  of_ok (congrFun (if_pos h) s) rfl

end Gives

namespace Programmer.Carries

variable {x : Act σ Stop α} {r : α → Emulator → Prop} {e' : Emulator}

theorem tell (hp : p.Carries view faultless) (n : Notice) :
    Gives view faultless (p.tell n) s () :=
  .modify (hp.note n s)

theorem tellAll (hp : p.Carries view faultless) (ns : List Notice) :
    Gives view faultless (p.tellAll ns) s () := by
  apply Gives.modify
  induction ns generalizing s with
  | nil => rfl
  | cons n ns ih => rw [List.foldl_cons, ih, hp.note]

theorem progress (hp : p.Carries view faultless) (e : Progress) :
    Gives view faultless (p.progress e) s () :=
  .modify (hp.report e s)

theorem onError (hp : p.Carries view faultless) {g : Error → Notice}
    (hx : Performs view faultless x s ops r) :
    Performs view faultless (p.onError x g) s ops r := by
  unfold Programmer.onError Act.onError
  cases hx with
  | ended hxs ha hr => exact .ended (by rw [hxs]) ha hr
  | stopped hxs hfault hd ha =>
    rename_i e s' done
    refine .stopped (by rw [hxs]) hfault hd ?_
    cases e with
    | error e =>
      dsimp only
      rw [hp.note]
      exact ha
    | stalled => exact ha
    | crashed => exact ha

/-- A command that the chip executes is performed, or refused before it reaches the chip. -/
theorem send (hp : p.Carries view faultless) {c : Command} {reply : Bytes}
    (hc : (view s).execute c = (.ok reply, e')) (ha : (view s).After ops e') :
    Performs view faultless (p.send c) s ops
      (fun a e => a = Bytes.overlayFront c.buffer reply ∧ e = e') := by
  have hcarry := hp.execute c s
  cases hx : p.execute c s with
  | mk res s' =>
    rw [hx, hc] at hcarry
    dsimp only at hcarry
    rcases hcarry with ⟨rfl, hv⟩ | ⟨hf, ⟨e, rfl⟩, hv⟩
    · exact .ended (by rw [Programmer.send, hx]) (hv ▸ ha) ⟨rfl, hv⟩
    · refine .stopped (by rw [Programmer.send, hx]) hf List.nil_prefix ?_
      rw [hv]
      exact .refl _

end Programmer.Carries
end NorFlash
