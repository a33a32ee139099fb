import NorFlash.Flash.Write
import NorFlash.Proofs.Checked.Planning
import NorFlash.Proofs.Content
import NorFlash.Proofs.Parallel
import NorFlash.Proofs.Safeguards

namespace NorFlash

/-- Every command is answered, with bytes or with an error. -/
structure Programmer.Replies {σ : Type} (p : Programmer σ) : Prop where
  not_stalled : ¬p.Answers .stalled
  not_crashed : ¬p.Answers .crashed

/-- How a step may end: with a value of which `q` holds, with an error, or in a wait for a chip that
was never found ready. There is no other way, so it does not crash. -/
inductive Programmer.Ends {σ α : Type} (p : Programmer σ) (q : α → Prop) :
    Except Stop α × σ → Prop where
  | value {a : α} {s : σ} (h : q a) : p.Ends q (.ok a, s)
  | error {e : Error} {s : σ} : p.Ends q (.error (.error e), s)
  | waiting {s₀ s : σ} {interval : Nat} (h : p.waitReady interval s₀ = (.error .stalled, s)) :
      p.Ends q (.error .stalled, s)

/-- From every state `x'`, which looks at its numbers, does what `x` does, and so it ends. -/
def Checks {σ α : Type} (p : Programmer σ) (x' x : Act σ Stop α) (q : α → Prop) : Prop :=
  ∀ s, x' s = x s ∧ p.Ends q (x s)

variable {σ α β γ : Type} {p : Programmer σ}

namespace Checks

variable {x' x : Act σ Stop α} {f' f : α → Act σ Stop β} {q : α → Prop} {r : β → Prop} {a : α}

theorem ended (h : ∀ s, p.Ends q (x s)) : Checks p x x q := fun s => ⟨rfl, h s⟩

theorem pure (h : q a) : Checks p (Pure.pure a) (Pure.pure a) q := ended fun _ => .value h

theorem fail (e : Error) : Checks p (Act.fail (.error e) : Act σ Stop α) (Act.fail (.error e)) q :=
  ended fun _ => .error

theorem modify (g : σ → σ) : Checks p (Act.modify g) (Act.modify g) fun _ => True :=
  ended fun _ => .value trivial

theorem read (g : σ → α) : Checks p (Act.read g) (Act.read g) fun _ => True :=
  ended fun _ => .value trivial

theorem require : Checks p (Stop.require (some a)) (Stop.require (some a)) fun b => b = a :=
  ended fun _ => .value rfl

theorem lift {result : Except Error α} :
    Checks p (Act.ofExcept (result.mapError .error)) (Stop.lift result) fun a =>
      result = .ok a := by
  refine ended fun s => ?_
  cases result with
  | ok a => exact .value rfl
  | error e => exact .error

theorem word {n : Nat} (h : n < addressSpace) :
    Checks p (Act.ofExcept (Checked.word n)) (Stop.word n addressSpace) fun m => m = n := by
  rw [Checked.word_of_lt h, Stop.word, if_pos h]
  exact ended fun _ => .value rfl

theorem mono (hx : Checks p x' x q) {q' : α → Prop} (h : ∀ a, q a → q' a) : Checks p x' x q' := by
  intro s
  obtain ⟨hsame, hends⟩ := hx s
  refine ⟨hsame, ?_⟩
  generalize x s = final at hends
  cases hends with
  | value ha => exact .value (h _ ha)
  | error => exact .error
  | waiting hwait => exact .waiting hwait

theorem bind (hx : Checks p x' x q) (hf : ∀ a, q a → Checks p (f' a) (f a) r) :
    Checks p (x' >>= f') (x >>= f) r := by
  intro s
  obtain ⟨hsame, hends⟩ := hx s
  rw [Act.bind_apply, Act.bind_apply, hsame]
  generalize x s = final at hends
  cases hends with
  | value ha => exact hf _ ha _
  | error => exact ⟨rfl, .error⟩
  | waiting hwait => exact ⟨rfl, .waiting hwait⟩

/-- A number is looked at and found right. -/
theorem finds {result : Except Stop γ} {c : γ} {g : γ → Act σ Stop α} (h : result = .ok c)
    (hx : Checks p (g c) x q) : Checks p (Act.ofExcept result >>= g) x q := by
  rw [h]
  exact hx

theorem onError (hx : Checks p x' x q) (g : Error → Notice) :
    Checks p (p.onError x' g) (p.onError x g) q := by
  intro s
  obtain ⟨hsame, hends⟩ := hx s
  unfold Programmer.onError Act.onError
  rw [hsame]
  generalize x s = final at hends
  cases hends with
  | value ha => exact ⟨rfl, .value ha⟩
  | error => exact ⟨rfl, .error⟩
  | waiting hwait => exact ⟨rfl, .waiting hwait⟩

theorem mapError (hx : Checks p x' x q) {g : Stop → Stop}
    (herror : ∀ e, ∃ e', g (.error e) = .error e') (hstalled : g .stalled = .stalled) :
    Checks p (x'.mapError g) (x.mapError g) q := by
  intro s
  obtain ⟨hsame, hends⟩ := hx s
  unfold Act.mapError
  rw [hsame]
  generalize x s = final at hends
  cases hends with
  | value ha => exact ⟨rfl, .value ha⟩
  | @error e s' =>
    obtain ⟨e', he⟩ := herror e
    dsimp only
    rw [he]
    exact ⟨rfl, .error⟩
  | waiting hwait =>
    dsimp only
    rw [hstalled]
    exact ⟨rfl, .waiting hwait⟩

/-- `inv` says what has become of the value when some first part of the list is done. -/
theorem fold {f' f : β → γ → Act σ Stop β} {xs : List γ} {b : β} (inv : List γ → β → Prop)
    (h₀ : inv [] b)
    (hstep : ∀ pre x post b, xs = pre ++ x :: post → inv pre b →
      Checks p (f' b x) (f b x) (inv (pre ++ [x]))) :
    Checks p (Act.fold f' b xs) (Act.fold f b xs) (inv xs) := by
  suffices h : ∀ post pre b, xs = pre ++ post → inv pre b →
      Checks p (Act.fold f' b post) (Act.fold f b post) (inv xs) from h xs [] b rfl h₀
  intro post
  induction post with
  | nil =>
    intro pre b hxs hinv
    rw [List.append_nil] at hxs
    subst hxs
    exact .pure hinv
  | cons x post ih =>
    intro pre b hxs hinv
    rw [Act.fold_cons, Act.fold_cons]
    refine .bind (hstep pre x post b hxs hinv) fun b' hinv' => ?_
    exact ih (pre ++ [x]) b' (by simp [hxs]) hinv'

/-- To wait quietly is to wait. -/
theorem of_quiet (hx : Checks p.quiet x' x q) : Checks p x' x q := by
  intro s
  obtain ⟨hsame, hends⟩ := hx s
  refine ⟨hsame, ?_⟩
  generalize x s = final at hends
  cases hends with
  | value ha => exact .value ha
  | error => exact .error
  | waiting hwait => exact .waiting ((congrFun (p.quiet_waitReady _) _).symm.trans hwait)

end Checks

namespace Programmer.Replies

variable (hp : p.Replies)
include hp

theorem quiet : p.quiet.Replies := ⟨hp.not_stalled, hp.not_crashed⟩

theorem send (c : Command) : Checks p (p.send c) (p.send c) fun reply =>
    reply.size = c.buffer.size := by
  refine .ended fun s => ?_
  have hstalled : (p.execute c s).1 ≠ .error .stalled := fun he => hp.not_stalled ⟨c, s, he⟩
  have hcrashed : (p.execute c s).1 ≠ .error .crashed := fun he => hp.not_crashed ⟨c, s, he⟩
  unfold Programmer.send
  cases hx : p.execute c s with
  | mk result s' =>
    rw [hx] at hstalled hcrashed
    match result with
    | .ok reply => exact .value (Bytes.size_overlayFront _ _)
    | .error (.error e) => exact .error
    | .error .stalled => exact absurd rfl hstalled
    | .error .crashed => exact absurd rfl hcrashed

theorem readStatus : Checks p p.readStatus p.readStatus fun _ => True :=
  .bind (hp.send _) fun _ _ => .pure trivial

theorem writeEnable : Checks p p.writeEnable p.writeEnable fun _ => True :=
  .bind (hp.send _) fun _ _ => .pure trivial

theorem checkLatch : Checks p p.checkLatch p.checkLatch fun _ => True :=
  .bind hp.readStatus fun _ _ => .pure trivial

/-- Nothing but patience that comes to its end lets a wait stall. -/
theorem waitReady (interval : Nat) :
    Checks p (p.waitReady interval) (p.waitReady interval) fun _ => True := by
  refine .ended fun s => ?_
  have hcrashed : (p.waitReady interval s).1 ≠ .error .crashed :=
    pollReady_spares hp.not_crashed nofun interval p.patience s
  cases hwait : p.waitReady interval s with
  | mk result s' =>
    rw [hwait] at hcrashed
    match result with
    | .ok () => exact .value trivial
    | .error (.error e) => exact .error
    | .error .stalled => exact .waiting hwait
    | .error .crashed => exact absurd rfl hcrashed

theorem readInto (addr : Nat) (buffer : Bytes) :
    Checks p (p.readInto addr buffer) (p.readInto addr buffer) fun reply =>
      reply.size = buffer.size :=
  .onError (hp.send _) _

theorem programPage (addr : Nat) (data : Bytes) :
    Checks p (p.programPage addr data) (p.programPage addr data) fun _ => True := by
  refine .bind hp.writeEnable fun _ _ => .bind hp.checkLatch fun latch _ => ?_
  split
  · exact .bind (hp.send _) fun _ _ => hp.waitReady _
  · exact .bind (.modify _) fun _ _ => .fail _

theorem enableErase (f : EraseFunction) (addr : Nat) :
    Checks p (p.enableErase f addr) (p.enableErase f addr) fun _ => True := by
  unfold Programmer.enableErase
  split
  · refine .bind hp.writeEnable fun _ _ => .bind hp.checkLatch fun latch _ => ?_
    split
    · exact .pure trivial
    · exact .fail _
  · exact .pure trivial

theorem sendErase (f : EraseFunction) (addr : Nat) :
    Checks p (p.sendErase f addr) (p.sendErase f addr) fun _ => True :=
  .mapError (.bind (.onError (hp.send _) _) fun _ _ => .pure trivial) (fun _ => ⟨_, rfl⟩) rfl

theorem eraseBlock (f : EraseFunction) (addr len size : Nat) :
    Checks p (p.eraseBlock f addr len size) (p.eraseBlock f addr len size) fun _ => True := by
  unfold Programmer.eraseBlock
  split
  · exact .bind (.modify _) fun _ _ => .fail _
  · exact .bind (hp.enableErase f addr) fun _ _ => .bind (hp.sendErase f addr) fun _ _ =>
      hp.waitReady _

end Programmer.Replies
end NorFlash
