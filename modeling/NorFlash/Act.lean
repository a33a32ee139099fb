namespace NorFlash

/-- A step on a state that may stop early. A step that stops still leaves its state. -/
def Act (σ ε α : Type) : Type := σ → Except ε α × σ

namespace Act

variable {σ ε α β : Type}

@[inline] protected def pure (a : α) : Act σ ε α := fun s => (.ok a, s)

@[inline] protected def bind (x : Act σ ε α) (f : α → Act σ ε β) : Act σ ε β := fun s =>
  match x s with
  | (.ok a, s') => f a s'
  | (.error e, s') => (.error e, s')

instance : Monad (Act σ ε) where
  pure := Act.pure
  bind := Act.bind

@[inline] def run (x : Act σ ε α) (s : σ) : Except ε α × σ := x s

@[inline] def fail (e : ε) : Act σ ε α := fun s => (.error e, s)

/-- A value or a failure that the state has no part in. -/
@[inline] def ofExcept (r : Except ε α) : Act σ ε α := fun s => (r, s)

@[inline] def modify (f : σ → σ) : Act σ ε Unit := fun s => (.ok (), f s)

@[inline] def read (f : σ → α) : Act σ ε α := fun s => (.ok (f s), s)

/-- Runs a step and hands its failure on as a value. -/
@[inline] def attempt {ε' : Type} (x : Act σ ε α) : Act σ ε' (Except ε α) := fun s =>
  match x s with
  | (r, s') => (.ok r, s')

@[inline] def mapError {ε' : Type} (f : ε → ε') (x : Act σ ε α) : Act σ ε' α := fun s =>
  match x s with
  | (.ok a, s') => (.ok a, s')
  | (.error e, s') => (.error (f e), s')

/-- Does something more to the state when a step has failed; the failure stays. -/
@[inline] def onError (x : Act σ ε α) (f : ε → σ → σ) : Act σ ε α := fun s =>
  match x s with
  | (.ok a, s') => (.ok a, s')
  | (.error e, s') => (.error e, f e s')

/-- Threads a value through a list of steps, up to the first that fails. -/
def fold (f : β → α → Act σ ε β) : β → List α → Act σ ε β
  | b, [] => fun s => (.ok b, s)
  | b, x :: xs => fun s =>
    match f b x s with
    | (.ok b', s') => fold f b' xs s'
    | (.error e, s') => (.error e, s')

/-- Runs a step for each element, up to the first that fails. -/
def each (f : α → Act σ ε Unit) (xs : List α) : Act σ ε Unit :=
  fold (fun _ x => f x) () xs

/-- The first element for which a step finds something, with what it found; no step is run on the
elements after it. -/
def first (f : α → Act σ ε (Option β)) : List α → Act σ ε (Option (α × β))
  | [] => fun s => (.ok none, s)
  | x :: xs => fun s =>
    match f x s with
    | (.ok (some b), s') => (.ok (some (x, b)), s')
    | (.ok none, s') => first f xs s'
    | (.error e, s') => (.error e, s')

@[simp] theorem pure_apply (a : α) (s : σ) : (pure a : Act σ ε α) s = (.ok a, s) := rfl

theorem bind_apply (x : Act σ ε α) (f : α → Act σ ε β) (s : σ) :
    (x >>= f) s = match x s with
      | (.ok a, s') => f a s'
      | (.error e, s') => (.error e, s') := rfl

theorem bind_ok {x : Act σ ε α} {f : α → Act σ ε β} {s s' : σ} {a : α}
    (h : x s = (.ok a, s')) : (x >>= f) s = f a s' := by
  rw [bind_apply, h]

theorem bind_error {x : Act σ ε α} {f : α → Act σ ε β} {s s' : σ} {e : ε}
    (h : x s = (.error e, s')) : (x >>= f) s = (.error e, s') := by
  rw [bind_apply, h]

@[simp] theorem modify_apply (f : σ → σ) (s : σ) :
    (modify f : Act σ ε Unit) s = (.ok (), f s) := rfl

@[simp] theorem read_apply (f : σ → α) (s : σ) : (read f : Act σ ε α) s = (.ok (f s), s) := rfl

@[simp] theorem fold_nil (f : β → α → Act σ ε β) (b : β) (s : σ) :
    fold f b [] s = (.ok b, s) := rfl

theorem fold_cons_apply (f : β → α → Act σ ε β) (b : β) (x : α) (xs : List α) (s : σ) :
    fold f b (x :: xs) s = match f b x s with
      | (.ok b', s') => fold f b' xs s'
      | (.error e, s') => (.error e, s') := rfl

theorem fold_cons (f : β → α → Act σ ε β) (b : β) (x : α) (xs : List α) :
    fold f b (x :: xs) = f b x >>= fun b' => fold f b' xs := rfl

end Act
end NorFlash
