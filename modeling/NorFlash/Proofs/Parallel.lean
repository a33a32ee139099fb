import NorFlash.Proofs.Judgment
import NorFlash.Session.Selection

namespace NorFlash

/-- From states in the relation both steps come to the same result, and to states in it again. -/
def Act.Mirrors {σ τ ε α : Type} (R : σ → τ → Prop) (x : Act σ ε α) (y : Act τ ε α) : Prop :=
  ∀ s t, R s t → (x s).1 = (y t).1 ∧ R (x s).2 (y t).2

structure Programmer.Parallel {σ τ : Type} (R : σ → τ → Prop) (p : Programmer σ)
    (q : Programmer τ) : Prop where
  execute : ∀ c, (p.execute c).Mirrors R (q.execute c)
  delay : ∀ n s t, R s t → R (p.delay n s) (q.delay n t)
  report : ∀ e s t, R s t → R (p.report e s) (q.report e t)
  note : ∀ n s t, R s t → R (p.note n s) (q.note n t)
  maxRead : ∀ s t, R s t → p.maxRead s = q.maxRead t
  maxWrite : ∀ s t, R s t → p.maxWrite s = q.maxWrite t
  patience : p.patience = q.patience

variable {σ τ ε ε' α β γ : Type} {R : σ → τ → Prop}

/-- A sequence that ends well is made of steps that do. -/
theorem Act.bind_eq_ok {x : Act σ ε α} {f : α → Act σ ε β} {s s' : σ} {b : β}
    (h : (x >>= f) s = (.ok b, s')) : ∃ a t, x s = (.ok a, t) ∧ f a t = (.ok b, s') := by
  cases hx : x s with
  | mk r t =>
    cases r with
    | ok a => exact ⟨a, t, rfl, by rwa [bind_ok hx] at h⟩
    | error e =>
      rw [bind_error hx] at h
      cases h

namespace Act.Mirrors

variable {x : Act σ ε α} {y : Act τ ε α} {f : α → Act σ ε β} {g : α → Act τ ε β}

theorem pure (a : α) : Mirrors R (Pure.pure a : Act σ ε α) (Pure.pure a) := fun _ _ h => ⟨rfl, h⟩

theorem fail (e : ε) : Mirrors R (Act.fail e : Act σ ε α) (Act.fail e) := fun _ _ h => ⟨rfl, h⟩

theorem ofExcept (r : Except ε α) : Mirrors R (Act.ofExcept r) (Act.ofExcept r) :=
  fun _ _ h => ⟨rfl, h⟩

theorem modify {u : σ → σ} {v : τ → τ} (h : ∀ s t, R s t → R (u s) (v t)) :
    Mirrors R (Act.modify u : Act σ ε Unit) (Act.modify v) :=
  fun s t hr => ⟨rfl, h s t hr⟩

theorem read {u : σ → α} {v : τ → α} (h : ∀ s t, R s t → u s = v t) :
    Mirrors R (Act.read u : Act σ ε α) (Act.read v) :=
  fun s t hr => ⟨congrArg Except.ok (h s t hr), hr⟩

/-- Both steps end with one result. -/
theorem ends (hx : Mirrors R x y) {s : σ} {t : τ} (h : R s t) :
    ∃ r s' t', x s = (r, s') ∧ y t = (r, t') ∧ R s' t' := by
  obtain ⟨hr, hs⟩ := hx s t h
  exact ⟨(y t).1, (x s).2, (y t).2, Prod.ext hr rfl, rfl, hs⟩

theorem bind (hx : Mirrors R x y) (hf : ∀ a, Mirrors R (f a) (g a)) :
    Mirrors R (x >>= f) (y >>= g) := by
  intro s t h
  obtain ⟨r, s', t', hxs, hyt, h'⟩ := hx.ends h
  rw [bind_apply, bind_apply, hxs, hyt]
  cases r with
  | ok a => exact hf a s' t' h'
  | error e => exact ⟨rfl, h'⟩

theorem mapError (hx : Mirrors R x y) (u : ε → ε') : Mirrors R (x.mapError u) (y.mapError u) := by
  intro s t h
  obtain ⟨r, s', t', hxs, hyt, h'⟩ := hx.ends h
  unfold Act.mapError
  rw [hxs, hyt]
  cases r with
  | ok a => exact ⟨rfl, h'⟩
  | error e => exact ⟨rfl, h'⟩

theorem attempt (hx : Mirrors R x y) :
    Mirrors R (x.attempt : Act σ ε' (Except ε α)) y.attempt := by
  intro s t h
  obtain ⟨r, s', t', hxs, hyt, h'⟩ := hx.ends h
  unfold Act.attempt
  rw [hxs, hyt]
  exact ⟨rfl, h'⟩

theorem first {f : γ → Act σ ε (Option β)} {g : γ → Act τ ε (Option β)}
    (h : ∀ x, Mirrors R (f x) (g x)) (xs : List γ) :
    Mirrors R (Act.first f xs) (Act.first g xs) := by
  induction xs with
  | nil => exact .pure none
  | cons x xs ih =>
    intro s t hr
    obtain ⟨r, s', t', hxs, hyt, h'⟩ := (h x).ends hr
    simp only [Act.first, hxs, hyt]
    match r with
    | .ok (some b) => exact ⟨rfl, h'⟩
    | .ok none => exact ih s' t' h'
    | .error e => exact ⟨rfl, h'⟩

theorem require (o : Option α) : Mirrors R (Stop.require o) (Stop.require o) := by
  cases o with
  | none => exact .fail _
  | some a => exact .pure a

theorem send {p : Programmer σ} {q : Programmer τ} {c : Command}
    (h : Mirrors R (p.execute c) (q.execute c)) : Mirrors R (p.send c) (q.send c) := by
  intro s t hr
  obtain ⟨r, s', t', hxs, hyt, h'⟩ := h.ends hr
  unfold Programmer.send
  rw [hxs, hyt]
  cases r with
  | ok reply => exact ⟨rfl, h'⟩
  | error e => exact ⟨rfl, h'⟩

end Act.Mirrors

namespace Programmer.Parallel

open Act (Mirrors)

variable {p : Programmer σ} {q : Programmer τ} (h : p.Parallel R q)
include h

theorem tell (n : Notice) : Mirrors R (p.tell n) (q.tell n) := .modify (h.note n)

theorem tellAll (ns : List Notice) : Mirrors R (p.tellAll ns) (q.tellAll ns) := by
  refine .modify fun s t hr => ?_
  induction ns generalizing s t with
  | nil => exact hr
  | cons n ns ih => exact ih _ _ (h.note n s t hr)

theorem send (c : Command) : Mirrors R (p.send c) (q.send c) := .send (h.execute c)

theorem readStatus : Mirrors R p.readStatus q.readStatus := .bind (h.send _) fun _ => .pure _

theorem pollReady (interval polls : Nat) :
    Mirrors R (p.pollReady interval polls) (q.pollReady interval polls) := by
  induction polls with
  | zero => exact .fail _
  | succ polls ih =>
    rw [pollReady_succ, pollReady_succ]
    refine .bind h.readStatus fun status => ?_
    split
    · exact .pure ()
    · exact .bind (.modify (h.delay interval)) fun _ => ih

theorem waitReady (interval : Nat) : Mirrors R (p.waitReady interval) (q.waitReady interval) := by
  unfold Programmer.waitReady
  rw [h.patience]
  exact h.pollReady interval _

end Programmer.Parallel

/-- Both steps came to one result, with states in the relation: to a value of which `post` holds or
to a failure that is allowed. -/
inductive Act.Meets (R : σ → τ → Prop) (allowed : ε → Prop) (post : α → Prop) :
    Except ε α × σ → Except ε α × τ → Prop where
  | ok {a : α} {s : σ} {t : τ} (value : post a) (states : R s t) :
      Meets R allowed post (.ok a, s) (.ok a, t)
  | error {e : ε} {s : σ} {t : τ} (failure : allowed e) (states : R s t) :
      Meets R allowed post (.error e, s) (.error e, t)

theorem Act.Mirrors.of_meets {x : Act σ ε α} {y : Act τ ε α} {allowed : ε → Prop}
    {post : α → Prop} (h : ∀ s t, R s t → Meets R allowed post (x s) (y t)) : Mirrors R x y := by
  intro s t hr
  have hxy := h s t hr
  generalize x s = u at hxy ⊢
  generalize y t = v at hxy ⊢
  cases hxy with
  | ok _ h' => exact ⟨rfl, h'⟩
  | error _ h' => exact ⟨rfl, h'⟩

theorem Act.Mirrors.meets {x : Act σ ε α} {y : Act τ ε α} (h : Mirrors R x y) :
    ∀ s t, R s t → Meets R (fun _ => True) (fun _ => True) (x s) (y t) := by
  intro s t hr
  obtain ⟨r, s', t', hxs, hyt, h'⟩ := h.ends hr
  rw [hxs, hyt]
  cases r with
  | ok a => exact .ok trivial h'
  | error e => exact .error trivial h'

namespace Programmer.Parallel

open Act (Mirrors Meets)

variable {p : Programmer σ} {q : Programmer τ}

/-- To meet is kept by sequences, if all that is done without a command fails only as is allowed. -/
def judgment (h : p.Parallel R q) (allowed : Stop → Prop) (hends : ∀ e, e ≠ .stalled → allowed e) :
    Judgment p q where
  holds x y post := ∀ s t, R s t → Meets R allowed post (x s) (y t)
  pure ha _ _ hr := .ok ha hr
  fail he _ _ hr := .error (hends _ he) hr
  bind {_ _ x y _ _ _ _} hx hf s t hr := by
    have hxy := hx s t hr
    rw [Act.bind_apply, Act.bind_apply]
    generalize x s = u at hxy ⊢
    generalize y t = v at hxy ⊢
    cases hxy with
    | ok ha h' => exact hf _ ha _ _ h'
    | error he h' => exact .error he h'
  onError {_ x y _ _} hx s t hr := by
    have hxy := hx s t hr
    unfold Programmer.onError Act.onError
    generalize x s = u at hxy ⊢
    generalize y t = v at hxy ⊢
    cases hxy with
    | ok ha h' => exact .ok ha h'
    | @error e _ _ he h' =>
      cases e with
      | error e => exact .error he (h.note _ _ _ h')
      | stalled => exact .error he h'
      | crashed => exact .error he h'
  mapError {_ x y _ u} hu hx s t hr := by
    have hxy := hx s t hr
    unfold Act.mapError
    generalize x s = x' at hxy ⊢
    generalize y t = y' at hxy ⊢
    cases hxy with
    | ok ha h' => exact .ok ha h'
    | @error e _ _ he h' =>
      refine .error ?_ h'
      by_cases hstall : u e = .stalled
      · rwa [hstall, ← hu e hstall]
      · exact hends _ hstall
  tell n s t hr := .ok trivial (h.note n s t hr)
  progress e s t hr := .ok trivial (h.report e s t hr)
  maxRead s t hr := by
    rw [Act.read_apply, Act.read_apply, h.maxRead s t hr]
    exact .ok trivial hr
  maxWrite s t hr := by
    rw [Act.read_apply, Act.read_apply, h.maxWrite s t hr]
    exact .ok trivial hr

variable (h : p.Parallel R q)
include h

/-- With any failure allowed, to meet is to mirror. -/
def mirroring : Judgment p q := h.judgment (fun _ => True) fun _ _ => trivial

theorem sends : ∀ c, True → h.mirroring.holds (p.send c) (q.send c) fun _ => True :=
  fun c _ => (h.send c).meets

theorem waits : ∀ interval,
    h.mirroring.holds (p.waitReady interval) (q.waitReady interval) fun _ => True :=
  fun interval => (h.waitReady interval).meets

variable (c : Chip)

theorem readInto (addr : Nat) (buffer : Bytes) :
    Mirrors R (p.readInto addr buffer) (q.readInto addr buffer) :=
  .of_meets (h.mirroring.readInto h.sends trivial)

theorem programPage (addr : Nat) (data : Bytes) :
    Mirrors R (p.programPage addr data) (q.programPage addr data) :=
  .of_meets (h.mirroring.programPage h.sends trivial trivial h.waits trivial)

theorem eraseBlock (f : EraseFunction) (addr len chipSize : Nat) :
    Mirrors R (p.eraseBlock f addr len chipSize) (q.eraseBlock f addr len chipSize) :=
  .of_meets (h.mirroring.eraseBlock h.sends trivial trivial h.waits trivial)

theorem checkRange (addr len : Nat) :
    Mirrors R (p.checkRange c addr len) (q.checkRange c addr len) :=
  .of_meets (h.mirroring.checkRange c addr len)

theorem readChip : Mirrors R (p.readChip c) (q.readChip c) :=
  .of_meets (h.mirroring.readChip c fun _ _ => h.mirroring.readInto h.sends trivial)

theorem writeChunked (addr : Nat) (data : Bytes) :
    Mirrors R (p.writeChunked c addr data) (q.writeChunked c addr data) :=
  .of_meets (h.mirroring.writeChunked c fun _ _ k _ piece => (h.programPage k.addr piece).meets)

theorem verify (addr : Nat) (expected : Bytes) :
    Mirrors R (p.verify c addr expected) (q.verify c addr expected) :=
  .of_meets (h.mirroring.verify c (fun addr piece => (h.readInto addr piece).meets) addr expected)

theorem write (strategy : Strategy) (start : Nat) (data : Bytes) :
    Mirrors R (p.write c strategy start data) (q.write c strategy start data) :=
  .of_meets (h.mirroring.write c (fun addr piece => (h.readInto addr piece).meets)
    (fun addr piece => (h.programPage addr piece).meets)
    (fun _ _ b _ => (h.eraseBlock b.function b.start b.size c.size).meets) strategy)

omit c in
theorem identify (name : String) (command : Bytes → Command) (buffer : Bytes) (bytes : Nat) :
    Mirrors R (p.identify name command buffer bytes) (q.identify name command buffer bytes) := by
  refine .bind (.require _) fun front => .bind (h.send _) fun answer => ?_
  exact .bind (h.tell _) fun _ => .pure _

omit c in
theorem answered {x : Act σ Stop Bytes} {y : Act τ Stop Bytes} (hx : x.Mirrors R y) (name : String)
    (bytes : Nat) : Mirrors R (p.answered name x bytes) (q.answered name y bytes) := by
  intro s t hr
  obtain ⟨r, s', t', hxs, hyt, h'⟩ := hx.ends hr
  unfold Programmer.answered
  rw [hxs, hyt]
  match r with
  | .ok raw =>
    dsimp only
    split
    · exact ⟨rfl, h'⟩
    · exact ⟨rfl, h.note _ s' t' h'⟩
  | .error (.error e) => exact ⟨rfl, h'⟩
  | .error .stalled => exact ⟨rfl, h'⟩
  | .error .crashed => exact ⟨rfl, h'⟩

theorem probeRdid (bytes : Nat) : Mirrors R (p.probeRdid c bytes) (q.probeRdid c bytes) := by
  refine .bind (h.identify _ _ _ _) fun raw => ?_
  exact .bind (h.tellAll _) fun _ => .bind (h.tell _) fun _ => .pure _

theorem probeRes1 : Mirrors R (p.probeRes1 c) (q.probeRes1 c) := by
  refine .bind (h.answered (h.identify _ _ _ _) _ _) fun rdid => ?_
  split
  · exact .pure _
  · refine .bind (h.answered (h.identify _ _ _ _) _ _) fun rems => ?_
    split
    · exact .pure _
    · refine .bind (h.identify _ _ _ _) fun raw => ?_
      exact .bind (h.tell _) fun _ => .pure _

theorem probeBy (m : ProbeMethod) : Mirrors R (p.probeBy c m) (q.probeBy c m) := by
  cases m with
  | rdid => exact h.probeRdid c 3
  | rdid4 => exact h.probeRdid c 4
  | rems => exact .bind (h.identify _ _ _ _) fun raw => .bind (h.tell _) fun _ => .pure _
  | res1 => exact h.probeRes1 c
  | res2 => exact .bind (h.identify _ _ _ _) fun raw => .bind (h.tell _) fun _ => .pure _
  | res3 => exact .bind (h.identify _ _ _ _) fun raw => .bind (h.tell _) fun _ => .pure _

theorem probeChip : Mirrors R (p.probeChip c) (q.probeChip c) := by
  intro s t hr
  obtain ⟨r, s', t', hxs, hyt, h'⟩ := (h.probeBy c c.probe).ends hr
  unfold Programmer.probeChip
  rw [hxs, hyt]
  match r with
  | .ok found => exact ⟨rfl, h'⟩
  | .error (.error e) => exact ⟨rfl, h.note _ s' t' h'⟩
  | .error .stalled => exact ⟨rfl, h'⟩
  | .error .crashed => exact ⟨rfl, h'⟩

theorem present : Mirrors R (p.present c) (q.present c) := .mapError (h.probeChip c) _

omit c in
theorem selectChip (chips : List Chip) (name : String) :
    Mirrors R (p.selectChip chips name) (q.selectChip chips name) := by
  unfold Programmer.selectChip
  split
  · refine .bind (.first (fun c => .bind (h.present c) fun _ => .pure _) chips) fun found => ?_
    cases found with
    | none => exact .fail _
    | some found => exact .bind (.modify (h.note _)) fun _ => .pure _
  · unfold Programmer.namedChip
    cases findChip? chips name with
    | none => exact .fail _
    | some c =>
      refine .bind (h.present c) fun present => ?_
      split
      · exact .bind (.modify (h.note _)) fun _ => .pure _
      · exact .bind (.modify (h.note _)) fun _ => .fail _

end Programmer.Parallel

variable {ρ : Type}

/-- A state beside one record all the time. -/
def Beside (log : List ρ) (s : σ × List ρ) (t : σ) : Prop := s = (t, log)

/-- A step that is put on record with its result. -/
def Act.recorded (e : Except ε α → ρ) (x : Act σ ε α) : Act (σ × List ρ) ε α := fun (s, log) =>
  match x s with
  | (r, s) => (r, (s, log ++ [e r]))

/-- Whatever was on record before, the step adds entries of which, with its result, `post` holds. -/
def Act.Adds (x : Act (σ × List ρ) ε α) (post : List ρ → Except ε α → Prop) : Prop :=
  ∀ s log, ∃ more, (x (s, log)).2.2 = log ++ more ∧ post more (x (s, log)).1

namespace Act.Adds

variable {x : Act (σ × List ρ) ε α} {f : α → Act (σ × List ρ) ε β}
  {first : List ρ → Except ε α → Prop} {post : List ρ → Except ε β → Prop}

theorem mono {q : List ρ → Except ε α → Prop} (hx : Adds x first)
    (h : ∀ more r, first more r → q more r) : Adds x q := by
  intro s log
  obtain ⟨more, hlog, hpost⟩ := hx s log
  exact ⟨more, hlog, h _ _ hpost⟩

/-- A step after a step adds its entries to those of the first, if the first ends well. -/
theorem bind (hx : Adds x first)
    (hf : ∀ more a, first more (.ok a) → Adds (f a) fun rest r => post (more ++ rest) r)
    (he : ∀ more e, first more (.error e) → post more (.error e)) : Adds (x >>= f) post := by
  intro s log
  obtain ⟨more, hlog, hfirst⟩ := hx s log
  cases hrun : x (s, log) with
  | mk result state =>
    rw [hrun] at hlog hfirst
    dsimp only at hlog hfirst
    cases result with
    | ok a =>
      rw [bind_ok hrun]
      obtain ⟨rest, hrest, hpost⟩ := hf more a hfirst state.1 state.2
      exact ⟨more ++ rest, by rw [hrest, hlog, List.append_assoc], hpost⟩
    | error e =>
      rw [bind_error hrun]
      exact ⟨more, hlog, he more e hfirst⟩

/-- A step that leaves the record alone. -/
theorem silent {q : Except ε α → Prop} (h : ∀ s, (x s).2.2 = s.2 ∧ q (x s).1) :
    Adds x fun more r => more = [] ∧ q r := by
  intro s log
  obtain ⟨hlog, hq⟩ := h (s, log)
  exact ⟨[], by rw [hlog, List.append_nil], rfl, hq⟩

/-- What is told of a failure is not put on record, if no message is. -/
theorem onError {p : Programmer (σ × List ρ)} (hnote : ∀ n s, (p.note n s).2 = s.2)
    {x : Act (σ × List ρ) Stop α} {first : List ρ → Except Stop α → Prop} {g : Error → Notice}
    (hx : Adds x first) : Adds (p.onError x g) first := by
  intro s log
  obtain ⟨more, hlog, hpost⟩ := hx s log
  unfold Programmer.onError Act.onError
  cases hrun : x (s, log) with
  | mk result state =>
    rw [hrun] at hlog hpost
    match result with
    | .ok a => exact ⟨more, hlog, hpost⟩
    | .error (.error e) => exact ⟨more, (hnote _ state).trans hlog, hpost⟩
    | .error .stalled => exact ⟨more, hlog, hpost⟩
    | .error .crashed => exact ⟨more, hlog, hpost⟩

/-- A step that has a counterpart without the record leaves the record alone. -/
theorem of_mirrors {y : Act σ ε α} (h : ∀ log, Mirrors (Beside log) x y) :
    Adds x fun more _ => more = [] := by
  refine mono (silent (q := fun _ => True) fun s => ⟨?_, trivial⟩) fun _ _ h => h.1
  have hs : (x s).2 = ((y s.1).2, s.2) := (h s.2 s s.1 rfl).2
  rw [hs]

end Act.Adds
end NorFlash
