import NorFlash.Proofs.Reopening

namespace NorFlash

open Act (Mirrors)

/-- A state beside itself, with something that holds of it. -/
def Act.Stays {σ : Type} (P : σ → Prop) (s t : σ) : Prop := s = t ∧ P s

theorem Act.mirrors_stays {σ ε α : Type} {P : σ → Prop} {x : Act σ ε α} :
    Mirrors (Stays P) x x ↔ ∀ s, P s → P (x s).2 := by
  constructor
  · intro h s hs
    exact (h s s ⟨rfl, hs⟩).2.2
  · rintro h s _ ⟨rfl, hs⟩
    exact ⟨rfl, rfl, h s hs⟩

namespace Equipment

open Act (Stays)

variable {ω α : Type} {eq : Equipment ω} {catalog : List Chip} {chip : Chip} {image : String}
  {s : Session Handle × ω}

/-- An open emulated chip that is kept in the image. -/
def Holds (chip : Chip) (image : String) (s : Handle × ω) : Prop :=
  ∃ e : Emulator, s.1 = .dummy e (some image) ∧ e.Steady chip

/-- Nothing that leaves the handle alone can do anything about it. -/
theorem within_stays {ε : Type} (x : Act ω ε α) (h' h : Handle) :
    Mirrors (Within (Stays (Holds chip image)) h' h) x x := by
  rintro w' w ⟨heq, hholds⟩
  cases heq
  exact ⟨rfl, rfl, hholds⟩

theorem workshop_stays (eq : Equipment ω) (catalog : List Chip) (chip : Chip) (image : String) :
    (eq.workshop catalog).Parallel (Stays (Holds chip image)) (eq.workshop catalog) where
  programmer :=
    { execute := fun c => Act.mirrors_stays.mpr (by
        rintro ⟨_, w⟩ ⟨e, rfl, hsteady⟩
        exact ⟨_, rfl, hsteady.execute c⟩)
      delay := by
        rintro us ⟨_, w⟩ _ ⟨rfl, e, rfl, hsteady⟩
        exact ⟨rfl, e, rfl, hsteady⟩
      report := by
        rintro p s _ ⟨rfl, hholds⟩
        exact ⟨rfl, hholds⟩
      note := by
        rintro n s _ ⟨rfl, hholds⟩
        exact ⟨rfl, hholds⟩
      maxRead := by
        rintro s _ ⟨rfl, _⟩
        rfl
      maxWrite := by
        rintro s _ ⟨rfl, _⟩
        rfl
      patience := rfl }
  notes h' h := by
    rintro n w' w ⟨heq, hholds⟩
    cases heq
    exact ⟨rfl, hholds⟩
  catalog := rfl

/-- A session with the emulated chip that is kept in the image. -/
def Seated (chip : Chip) (image : String) (s : Session Handle × ω) : Prop :=
  ∃ e c x, s.1 = onImage chip image e c x ∧ e.Steady chip

theorem Seated.withProgrammer {f : String → Session.Work ω Handle α}
    (hf : ∀ args, Mirrors (Stays (Holds chip image)) (f args) (f args)) :
    Mirrors (Stays (Seated chip image)) (Session.withProgrammer f) (Session.withProgrammer f) := by
  refine Act.mirrors_stays.mpr ?_
  rintro ⟨_, w⟩ ⟨e, c, x, rfl, hsteady⟩
  have hholds := Act.mirrors_stays.mp (hf (imageArgs chip image)) (.dummy e (some image), w)
    ⟨e, rfl, hsteady⟩
  rcases hrun : f (imageArgs chip image) (.dummy e (some image), w) with ⟨r, h, w'⟩
  rw [hrun] at hholds
  obtain ⟨e', rfl, hsteady'⟩ := hholds
  simp only [onImage, emulating, Session.withProgrammer, hrun]
  exact ⟨e', c, x, rfl, hsteady'⟩

theorem Seated.withChip {f : Chip → Session.Work ω Handle α}
    (hf : ∀ c, Mirrors (Stays (Holds chip image)) (f c) (f c)) :
    Mirrors (Stays (Seated chip image)) (Session.withChip f) (Session.withChip f) := by
  refine Act.mirrors_stays.mpr ?_
  rintro ⟨_, w⟩ ⟨e, _ | c, x, rfl, hsteady⟩
  · exact ⟨e, none, x, rfl, hsteady⟩
  · have hwith := Seated.withProgrammer (f := fun _ => f c) fun _ => hf c
    exact Act.mirrors_stays.mp hwith _ ⟨e, some c, x, rfl, hsteady⟩

/-- Whatever an operation comes to, the emulated chip stays open, unless the operation is to open
another programmer. -/
theorem Seated.execute {op : Operation} (hop : ∀ args, op ≠ .setProgrammer args) :
    Mirrors (Stays (Seated chip image)) (op.execute (eq.workshop catalog))
      (op.execute (eq.workshop catalog)) := by
  have hs := workshop_stays eq catalog chip image
  have hkeeps {f : Session Handle × ω → Session Handle × ω}
      (hf : ∀ e c x w, ∃ c' x', (f (onImage chip image e c x, w)).1 = onImage chip image e c' x') :
      Mirrors (Stays (Seated chip image)) (Act.modify f : Session.Step ω Handle Unit)
        (Act.modify f) := by
    refine Act.mirrors_stays.mpr ?_
    rintro ⟨_, w⟩ ⟨e, c, x, rfl, hsteady⟩
    obtain ⟨c', x', hsame⟩ := hf e c x w
    exact ⟨e, c', x', hsame, hsteady⟩
  cases op with
  | read path => exact Seated.withChip fun c => hs.readWork c fun _ _ _ => within_stays _ _ _
  | write path =>
    refine .bind (.bind (.read ?_) fun x => ?_) fun _ => .pure ()
    · rintro s _ ⟨rfl, _⟩
      rfl
    · exact Seated.withChip fun c => hs.writeWork x c fun _ _ => within_stays _ _ _
  | verify path =>
    refine .bind (Seated.withChip fun c => ?_) fun _ => .pure ()
    exact hs.verifyWork c fun _ _ => within_stays _ _ _
  | setStrategy y =>
    refine .bind (hkeeps fun e c x w => ⟨c, x, rfl⟩) fun _ => hkeeps fun e c x w => ⟨c, y, rfl⟩
  | setChip name =>
    refine .bind (Seated.withProgrammer fun args => hs.selecting name args) fun c => ?_
    exact hkeeps fun e _ x w => ⟨some c, x, rfl⟩
  | setProgrammer args => exact absurd rfl (hop args)

/-- The emulated chip that is open at the start of a run is open at its end. -/
theorem Seated.runAll {ops : List Operation}
    (hops : ∀ op ∈ ops, ∀ args, op ≠ .setProgrammer args) (h : Seated chip image s) :
    Seated chip image (Queue.runAll (eq.workshop catalog) ops s).2 := by
  induction ops generalizing s with
  | nil => exact h
  | cons op ops ih =>
    have hstays : Mirrors (Stays (Seated chip image)) (op.execute (eq.workshop catalog))
        (op.execute (eq.workshop catalog)) := Seated.execute (hops op List.mem_cons_self)
    have hop := Act.mirrors_stays.mp hstays (Queue.begun (eq.workshop catalog) op s) h
    rw [Queue.runAll_cons]
    rcases hexecute : op.execute (eq.workshop catalog) (Queue.begun (eq.workshop catalog) op s) with
      ⟨e | _, t⟩
    · rw [hexecute] at hop
      exact hop
    · rw [hexecute] at hop
      exact ih (fun op' hop' => hops op' (List.mem_cons_of_mem op hop')) hop

end Equipment
end NorFlash
