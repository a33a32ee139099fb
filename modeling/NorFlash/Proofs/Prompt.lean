import NorFlash.Proofs.Parallel

namespace NorFlash

/-- From the states of `inv` the step leads to such states again, and does not stall. -/
def Act.Finishes {σ α : Type} (inv : σ → Prop) (x : Act σ Stop α) : Prop :=
  ∀ s, inv s → inv (x s).2 ∧ (x s).1 ≠ .error .stalled

/-- In the states of `inv` every command is answered and every wait ends. -/
structure Programmer.Prompt {σ : Type} (p : Programmer σ) (inv : σ → Prop) : Prop where
  execute : ∀ c, (p.execute c).Finishes inv
  delay : ∀ n s, inv s → inv (p.delay n s)
  report : ∀ e s, inv s → inv (p.report e s)
  note : ∀ n s, inv s → inv (p.note n s)
  waitReady : ∀ interval, (p.waitReady interval).Finishes inv

variable {σ α : Type} {inv : σ → Prop} {x : Act σ Stop α} {post : α → Prop}

namespace Act

theorem Finishes.keeps (hx : x.Finishes inv) {s s' : σ} (hs : inv s) {r : Except Stop α}
    (h : x s = (r, s')) : inv s' := by
  have hinv := (hx s hs).1
  rwa [h] at hinv

/-- A state of `inv` beside itself. -/
def Same (inv : σ → Prop) (s t : σ) : Prop := s = t ∧ inv s

theorem Finishes.mirrors (hx : x.Finishes inv) : Mirrors (Same inv) x x := by
  rintro s _ ⟨rfl, hs⟩
  exact ⟨rfl, rfl, (hx s hs).1⟩

/-- A step that meets itself, and must not stall, finishes. -/
theorem Finishes.of_meets
    (h : ∀ s t, Same inv s t → Meets (Same inv) (· ≠ Halt.stalled) post (x s) (x t)) :
    x.Finishes inv := by
  intro s hs
  have hxx := h s s ⟨rfl, hs⟩
  generalize x s = u at hxx ⊢
  cases hxx with
  | ok _ h' => exact ⟨h'.2, nofun⟩
  | error he h' => exact ⟨h'.2, fun hstall => he (Except.error.inj hstall)⟩

theorem Finishes.meets (hx : x.Finishes inv) :
    ∀ s t, Same inv s t → Meets (Same inv) (· ≠ Halt.stalled) (fun _ => True) (x s) (x t) := by
  rintro s _ ⟨rfl, hs⟩
  have hxs := hx s hs
  generalize x s = u at hxs ⊢
  obtain ⟨r, s'⟩ := u
  cases r with
  | ok a => exact .ok trivial ⟨rfl, hxs.1⟩
  | error e => exact .error (fun he => hxs.2 (congrArg _ he)) ⟨rfl, hxs.1⟩

end Act

namespace Programmer.Prompt

open Act (Finishes Same)

variable {p : Programmer σ} (h : p.Prompt inv)
include h

theorem parallel : p.Parallel (Same inv) p where
  execute c := (h.execute c).mirrors
  delay n := by
    rintro s _ ⟨rfl, hs⟩
    exact ⟨rfl, h.delay n s hs⟩
  report e := by
    rintro s _ ⟨rfl, hs⟩
    exact ⟨rfl, h.report e s hs⟩
  note n := by
    rintro s _ ⟨rfl, hs⟩
    exact ⟨rfl, h.note n s hs⟩
  maxRead _ _ hs := congrArg p.maxRead hs.1
  maxWrite _ _ hs := congrArg p.maxWrite hs.1
  patience := rfl

/-- The programmer beside itself, where nothing may stall. -/
def finishing : Judgment p p := h.parallel.judgment (· ≠ Halt.stalled) fun _ he => he

theorem send (c : Command) : Finishes inv (p.send c) := by
  intro s hs
  obtain ⟨hinv, hends⟩ := h.execute c s hs
  unfold Programmer.send
  cases hxs : p.execute c s with
  | mk r s' =>
    rw [hxs] at hinv hends
    cases r with
    | ok reply => exact ⟨hinv, nofun⟩
    | error e => exact ⟨hinv, hends⟩

theorem sends : ∀ c, True → h.finishing.holds (p.send c) (p.send c) fun _ => True :=
  fun c _ => (h.send c).meets

theorem waits : ∀ interval,
    h.finishing.holds (p.waitReady interval) (p.waitReady interval) fun _ => True :=
  fun interval => (h.waitReady interval).meets

theorem writeEnable : Finishes inv p.writeEnable :=
  .of_meets (h.finishing.writeEnable h.sends trivial)

theorem checkLatch : Finishes inv p.checkLatch :=
  .of_meets (h.finishing.checkLatch h.sends trivial)

theorem enableErase (f : EraseFunction) (addr : Nat) : Finishes inv (p.enableErase f addr) :=
  .of_meets (h.finishing.enableErase h.sends trivial trivial f addr)

theorem readInto (addr : Nat) (buffer : Bytes) : Finishes inv (p.readInto addr buffer) :=
  .of_meets (h.finishing.readInto h.sends trivial)

theorem programPage (addr : Nat) (data : Bytes) : Finishes inv (p.programPage addr data) :=
  .of_meets (h.finishing.programPage h.sends trivial trivial h.waits trivial)

theorem eraseBlock (f : EraseFunction) (addr len chipSize : Nat) :
    Finishes inv (p.eraseBlock f addr len chipSize) :=
  .of_meets (h.finishing.eraseBlock h.sends trivial trivial h.waits trivial)

variable (c : Chip)

theorem readChunked (addr len : Nat) : Finishes inv (p.readChunked c addr len) :=
  .of_meets (h.finishing.readChunked c fun _ _ k _ piece => (h.readInto k.addr piece).meets)

theorem writeChunked (addr : Nat) (data : Bytes) : Finishes inv (p.writeChunked c addr data) :=
  .of_meets (h.finishing.writeChunked c fun _ _ k _ piece => (h.programPage k.addr piece).meets)

theorem erase (start len : Nat) (exact : Bool) : Finishes inv (p.erase c start len exact) :=
  .of_meets (h.finishing.erase c fun _ _ b _ =>
    (h.eraseBlock b.function b.start b.size c.size).meets)

theorem write (strategy : Strategy) (start : Nat) (data : Bytes) :
    Finishes inv (p.write c strategy start data) :=
  .of_meets (h.finishing.write c (fun addr piece => (h.readInto addr piece).meets)
    (fun addr piece => (h.programPage addr piece).meets)
    (fun _ _ b _ => (h.eraseBlock b.function b.start b.size c.size).meets) strategy)

end Programmer.Prompt
end NorFlash
