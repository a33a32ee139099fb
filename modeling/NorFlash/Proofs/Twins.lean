import NorFlash.Proofs.Reopening

namespace NorFlash

open Act (Mirrors)

/-- Where the first step ends well, the second ends with the same value and a related state, or, if
it may, it fails. -/
def Act.Follows {σ τ ε α : Type} (may : Prop) (R : σ → τ → Prop) (x : Act σ ε α) (y : Act τ ε α) :
    Prop :=
  ∀ s t, R s t → ∀ a s', x s = (.ok a, s') →
    (∃ t', y t = (.ok a, t') ∧ R s' t') ∨ may ∧ ∃ e t', y t = (.error e, t')

namespace Act.Follows

variable {σ τ ε α β : Type} {may : Prop} {R : σ → τ → Prop} {x : Act σ ε α} {y : Act τ ε α}
  {f : α → Act σ ε β} {g : α → Act τ ε β}

theorem of_mirrors (h : Mirrors R x y) : Follows may R x y := by
  intro s t hst a s' hx
  obtain ⟨r, s'', t', hx', hy, hR⟩ := h.ends hst
  rw [hx] at hx'
  cases hx'
  exact .inl ⟨t', hy, hR⟩

theorem bind (hx : Follows may R x y) (hf : ∀ a, Follows may R (f a) (g a)) :
    Follows may R (x >>= f) (y >>= g) := by
  intro s t hst b s' hrun
  obtain ⟨a, s₁, hxs, hfs⟩ := bind_eq_ok hrun
  rcases hx s t hst a s₁ hxs with ⟨t₁, hyt, hR⟩ | ⟨hmay, e, t₁, hyt⟩
  · rw [bind_ok hyt]
    exact hf a s₁ t₁ hR b s' hfs
  · exact .inr ⟨hmay, e, t₁, bind_error hyt⟩

end Act.Follows

variable {ω α : Type} {eq : Equipment ω} {same : String → String → Prop} {chip : Chip}
  {image : String} {may : Prop}

open Act (Follows)

/-- Worlds in which files read alike but for the image. -/
def Equipment.Apart (eq : Equipment ω) (same : String → String → Prop) (image : String)
    (w v : ω) : Prop :=
  ∀ q, ¬same image q → eq.files.view w q = eq.files.view v q

namespace Equipment.Apart

variable {path : String}

theorem of_view {w w' v v' : ω} (h : eq.Apart same image w v)
    (hw : eq.files.view w' = eq.files.view w) (hv : eq.files.view v' = eq.files.view v) :
    eq.Apart same image w' v' := by
  intro q hq
  rw [hw, hv, h q hq]

theorem notes (hlasts : eq.Lasts same) :
    eq.files.Notes (eq.Apart same image) eq.files :=
  fun n w v h => h.of_view (hlasts.note n w) (hlasts.note n v)

/-- A file that is not the image reads alike. -/
theorem read (hlasts : eq.Lasts same) (hpath : ¬same image path) :
    Mirrors (eq.Apart same image) (eq.files.read path) (eq.files.read path) :=
  fun w v h => ⟨h path hpath, h.of_view (hlasts.read path w) (hlasts.read path v)⟩

/-- A file is saved alike, if it can be. -/
theorem save (hlasts : eq.Lasts same) (hmay : ¬may → eq.files.Steady) (data : Bytes) :
    Follows may (eq.Apart same image) (Image.save eq.files path data)
      (Image.save eq.files path data) := by
  intro w v h a w' hrun
  unfold Image.save at hrun ⊢
  cases hw : eq.files.write path data w with
  | mk r w₁ =>
    rw [hw] at hrun
    cases r with
    | error e => cases hrun
    | ok _ =>
      cases hrun
      cases hv : eq.files.write path data v with
      | mk r v₁ =>
        cases r with
        | error e =>
          refine .inr ⟨?_, _, _, rfl⟩
          by_contra hsteady
          have hwrites := hmay hsteady path data data w v (by rw [hw])
          rw [hv] at hwrites
          cases hwrites
        | ok _ =>
          have hreplaced := hlasts.write hw
          have hreplaced' := hlasts.write hv
          refine .inl ⟨_, rfl, notes hlasts _ _ _ fun q hq => ?_⟩
          by_cases hpath : same path q
          · rw [hreplaced.own q hpath, hreplaced'.own q hpath]
          · rw [hreplaced.others q hpath, hreplaced'.others q hpath, h q hq]

end Equipment.Apart

/-- Two emulated chips at rest that differ in their journals only, in such worlds. -/
inductive Equipment.Twins (eq : Equipment ω) (same : String → String → Prop) (chip : Chip)
    (image : String) : Handle × ω → Handle × ω → Prop where
  | mk (e d : Emulator) (w v : ω) (rest : e.AtRest chip) (alike : e.Alike d)
      (apart : eq.Apart same image w v) :
      Twins eq same chip image (.dummy e (some image), w) (.dummy d (some image), v)

namespace Equipment.Twins

/-- Work with the chip that leaves it at rest. -/
theorem chipWork (hlasts : eq.Lasts same)
    {X : ∀ {σ : Type}, Programmer σ → Act σ Stop α} (hX : Restful X) :
    Follows may (eq.Twins same chip image) (Session.chipWork (X eq.programmer))
      (Session.chipWork (X eq.programmer)) := by
  rintro _ _ ⟨e, d, w, v, hrest, halike, hapart⟩ a s' hrun
  obtain ⟨r, e', d', he, hd, halike'⟩ := (hX.mirrors Emulator.programmer_alike).ends halike
  obtain ⟨w', hw, hview'⟩ := hlasts.chipWork (some image) hX he w
  obtain ⟨v', hv, hview''⟩ := hlasts.chipWork (some image) hX hd v
  rw [hw] at hrun
  rw [hv]
  cases r with
  | error stop => cases hrun
  | ok b =>
    cases hrun
    have hrest' := hrest.of_restful hX he
    exact .inl ⟨_, rfl, .mk e' d' w' v' hrest' halike' (hapart.of_view hview' hview'')⟩

/-- Work that leaves the chip alone. -/
theorem aside {x : Act ω Failure α} (hx : Follows may (eq.Apart same image) x x) :
    Follows may (eq.Twins same chip image) (Session.aside x) (Session.aside x) := by
  rintro _ _ ⟨e, d, w, v, hrest, halike, hapart⟩ a s' hrun
  rcases hxw : x w with ⟨f | b, w'⟩
  · simp only [Session.aside, hxw] at hrun
    cases hrun
  · simp only [Session.aside, hxw] at hrun
    cases hrun
    rcases hx w v hapart a w' hxw with ⟨v', hxv, hapart'⟩ | ⟨hmay, f, v', hxv⟩
    · exact .inl ⟨_, by simp only [Session.aside, hxv], .mk e d w' v' hrest halike hapart'⟩
    · exact .inr ⟨hmay, .error f, (.dummy d (some image), v'), by simp only [Session.aside, hxv]⟩

variable {catalog : List Chip} {path : String}

theorem say (hlasts : eq.Lasts same) (n : Notice) :
    Follows may (eq.Twins same chip image) (Session.say (eq.workshop catalog) n)
      (Session.say (eq.workshop catalog) n) :=
  aside (.of_mirrors (Workshop.tell_mirrors (Apart.notes hlasts) n))

theorem load (hlasts : eq.Lasts same) (hpath : ¬same image path) (size : Nat) :
    Follows may (eq.Twins same chip image) (Session.aside (Image.load eq.files path size))
      (Session.aside (Image.load eq.files path size)) :=
  aside (.of_mirrors (Image.load_mirrors (Apart.notes hlasts) (Apart.read hlasts hpath) size))

section Work

variable (hlasts : eq.Lasts same) (c : Chip)
include hlasts

theorem readWork (hmay : ¬may → eq.files.Steady) :
    Follows may (eq.Twins same chip image) (Session.readWork (eq.workshop catalog) path c)
      (Session.readWork (eq.workshop catalog) path c) := by
  refine .bind (say hlasts _) fun _ => ?_
  refine .bind (chipWork hlasts (restful_readChip c)) fun data => ?_
  exact .bind (aside (Apart.save hlasts hmay data)) fun _ => say hlasts _

variable (hpath : ¬same image path)
include hpath

theorem writeWork (x : Strategy) :
    Follows may (eq.Twins same chip image) (Session.writeWork (eq.workshop catalog) path x c)
      (Session.writeWork (eq.workshop catalog) path x c) := by
  refine .bind (load hlasts hpath c.size) fun data => .bind (say hlasts _) fun _ => ?_
  refine .bind (chipWork hlasts (restful_write c x data)) fun stats => ?_
  exact .bind (say hlasts _) fun _ => .of_mirrors (.pure stats)

theorem verifyWork :
    Follows may (eq.Twins same chip image) (Session.verifyWork (eq.workshop catalog) path c)
      (Session.verifyWork (eq.workshop catalog) path c) := by
  refine .bind (load hlasts hpath c.size) fun expected => ?_
  refine .bind (chipWork hlasts (restful_verify c expected)) fun verdict => ?_
  refine .bind (.of_mirrors (.modify ?_)) fun _ => .of_mirrors (.pure verdict)
  rintro _ _ ⟨e, d, w, v, hrest, halike, hapart⟩
  exact .mk e d _ _ hrest halike ((Apart.notes hlasts).all _ hapart)

end Work

end Equipment.Twins

/-- It is an operation on a file other than the image. -/
def Operation.Elsewhere (same : String → String → Prop) (image : String) (op : Operation) : Prop :=
  ∃ path, op.path? = some path ∧ ¬same image path

/-- What a comparison finds that is executed now. -/
def Operation.verdict? {μ : Type} (shop : Workshop ω μ) (op : Operation) (s : Session μ × ω) :
    Option Verdict :=
  match op with
  | .verify path => (Session.verifyFile shop path s).1.toOption
  | _ => none

/-- What the comparisons find among operations that are executed up to the first that fails. -/
def Queue.verdicts {μ : Type} (shop : Workshop ω μ) :
    List Operation → Session μ × ω → List Verdict
  | [], _ => []
  | op :: ops, s =>
    (op.verdict? shop (begun shop op s)).toList ++
      match op.execute shop (begun shop op s) with
      | (.ok (), t) => verdicts shop ops t
      | (.error _, _) => []

namespace Equipment

/-- Sessions with twins, the same chip and the same strategy. -/
inductive Beside (eq : Equipment ω) (same : String → String → Prop) (chip : Chip) (image : String)
    (c : Chip) (x : Strategy) : Session Handle × ω → Session Handle × ω → Prop where
  | mk (e d : Emulator) (w v : ω)
      (twins : eq.Twins same chip image (.dummy e (some image), w) (.dummy d (some image), v)) :
      Beside eq same chip image c x (onImage chip image e (some c) x, w)
        (onImage chip image d (some c) x, v)

variable {catalog : List Chip} {path : String} {c : Chip} {c₀ : Option Chip} {x : Strategy}
  {op : Operation}
  {ops : List Operation} {s s' t t' : Session Handle × ω}

theorem Beside.withChip {f : Chip → Session.Work ω Handle α}
    (hf : Follows may (eq.Twins same chip image) (f c) (f c)) :
    Follows may (eq.Beside same chip image c x) (Session.withChip f) (Session.withChip f) := by
  rintro _ _ ⟨e, d, w, v, htwins⟩ a s' hrun
  rcases hx : f c (.dummy e (some image), w) with ⟨r, h, w'⟩
  simp only [onImage, emulating, Session.withChip, Session.withProgrammer, hx] at hrun ⊢
  cases hrun
  rcases hf _ _ htwins a _ hx with ⟨_, hy, htwins'⟩ | ⟨hmay, e', ⟨h', v'⟩, hy⟩
  · rw [hy]
    cases htwins' with
    | mk e' d' _ v' hrest halike hapart =>
      exact .inl ⟨_, rfl, .mk e' d' w' v' (.mk e' d' w' v' hrest halike hapart)⟩
  · rw [hy]
    exact .inr ⟨hmay, _, _, rfl⟩

theorem Beside.begun (hlasts : eq.Lasts same) (op : Operation)
    (h : eq.Beside same chip image c x s t) :
    eq.Beside same chip image c x (Queue.begun (eq.workshop catalog) op s)
      (Queue.begun (eq.workshop catalog) op t) := by
  obtain ⟨e, d, w, v, htwins⟩ := h
  cases htwins with
  | mk _ _ _ _ hrest halike hapart =>
    exact .mk e d _ _ (.mk e d _ _ hrest halike (Apart.notes hlasts _ _ _ hapart))

section Operations

variable (hlasts : eq.Lasts same)
include hlasts

theorem Beside.verifyFile (hpath : ¬same image path) :
    Follows may (eq.Beside same chip image c x) (Session.verifyFile (eq.workshop catalog) path)
      (Session.verifyFile (eq.workshop catalog) path) :=
  Beside.withChip (Twins.verifyWork hlasts c hpath)

theorem Beside.verdict? (hop : op.Elsewhere same image) (h : eq.Beside same chip image c x s t)
    (hs : op.execute (eq.workshop catalog) s = (.ok (), s'))
    (ht : op.execute (eq.workshop catalog) t = (.ok (), t')) :
    op.verdict? (eq.workshop catalog) s = op.verdict? (eq.workshop catalog) t := by
  obtain ⟨path, hop, hpath⟩ := hop
  cases op with
  | verify path =>
    cases hop
    obtain ⟨v, s₁, hv, _⟩ := Act.bind_eq_ok hs
    obtain ⟨v', t₁, hv', _⟩ := Act.bind_eq_ok ht
    have hfollows : Follows False (eq.Beside same chip image c x)
        (Session.verifyFile (eq.workshop catalog) path)
        (Session.verifyFile (eq.workshop catalog) path) := Beside.verifyFile hlasts hpath
    rcases hfollows s t h v s₁ hv with ⟨t₂, hsame, _⟩ | ⟨hno, _⟩
    · rw [hv'] at hsame
      cases hsame
      simp only [Operation.verdict?, hv, hv']
    · exact hno.elim
  | _ => rfl

variable (hmay : ¬may → eq.files.Steady)
include hmay

theorem Beside.execute (hop : op.Elsewhere same image) :
    Follows may (eq.Beside same chip image c x) (op.execute (eq.workshop catalog))
      (op.execute (eq.workshop catalog)) := by
  obtain ⟨path, hop, hpath⟩ := hop
  cases op with
  | read path =>
    cases hop
    exact Beside.withChip (Twins.readWork hlasts c hmay)
  | write path =>
    cases hop
    refine .bind (.bind (.of_mirrors (.read ?_)) fun y => ?_) fun _ => .of_mirrors (.pure ())
    · rintro _ _ ⟨e, d, w, v, _⟩
      rfl
    · exact Beside.withChip (Twins.writeWork hlasts c hpath y)
  | verify path =>
    cases hop
    exact .bind (Beside.verifyFile hlasts hpath) fun _ => .of_mirrors (.pure ())
  | setStrategy y => cases hop
  | setChip name => cases hop
  | setProgrammer args => cases hop

/-- A run on one of two twins is followed by the same run on the other, with the same verdicts. -/
theorem Beside.runAll (hops : ∀ op ∈ ops, op.Elsewhere same image)
    (h : eq.Beside same chip image c x s t)
    (hs : Queue.runAll (eq.workshop catalog) ops s = (.ok (), s')) :
    (∃ t', Queue.runAll (eq.workshop catalog) ops t = (.ok (), t') ∧
        eq.Beside same chip image c x s' t' ∧
        Queue.verdicts (eq.workshop catalog) ops s = Queue.verdicts (eq.workshop catalog) ops t) ∨
      may ∧ ∃ e t', Queue.runAll (eq.workshop catalog) ops t = (.error e, t') := by
  induction ops generalizing s t with
  | nil =>
    cases hs
    exact .inl ⟨t, rfl, h, rfl⟩
  | cons op ops ih =>
    obtain ⟨s₁, hexecute, hrest⟩ := Queue.runAll_cons_ok.mp hs
    have hop := hops op List.mem_cons_self
    have hbegun : eq.Beside same chip image c x (Queue.begun (eq.workshop catalog) op s)
        (Queue.begun (eq.workshop catalog) op t) := h.begun hlasts op
    rcases Beside.execute hlasts hmay hop _ _ hbegun () s₁ hexecute with
      ⟨t₁, hfollows, h₁⟩ | ⟨hm, e, t₁, hfails⟩
    · have hverdict := Beside.verdict? hlasts hop hbegun hexecute hfollows
      rcases ih (fun op' hop' => hops op' (List.mem_cons_of_mem op hop')) h₁ hrest with
        ⟨t', hrun, h', hverdicts⟩ | ⟨hm, e, t', hrun⟩
      · refine .inl ⟨t', Queue.runAll_cons_ok.mpr ⟨t₁, hfollows, hrun⟩, h', ?_⟩
        simp only [Queue.verdicts, hexecute, hfollows, hverdict, hverdicts]
      · exact .inr ⟨hm, e, t', by rw [Queue.runAll_cons, hfollows]; exact hrun⟩
    · exact .inr ⟨hm, e, _, by rw [Queue.runAll_cons, hfails]⟩

end Operations

end Equipment
end NorFlash
