import NorFlash.Proofs.Seated
import NorFlash.Proofs.Twins

namespace NorFlash

open Act (Mirrors)

variable {ω : Type} {eq : Equipment ω} {same : String → String → Prop} {catalog : List Chip}
  {chip c : Chip} {image : String}

namespace Equipment

variable {c₀ : Option Chip} {x : Strategy} {s s' t t' : Session Handle × ω}

theorem shutdown_onImage (e : Emulator) (c₀ : Option Chip) (x : Strategy) (w : ω) :
    Session.shutdown (eq.workshop catalog) (onImage chip image e c₀ x, w) =
      match Emulator.saveImage eq.files image e.cells
        (eq.files.note (Session.shutdownNotice DriverKind.dummy.name) w) with
      | (.ok _, v) => (.ok (), (⟨none, c₀, x⟩, v))
      | (.error f, v) => (.error (.error (.core f)), (⟨none, c₀, x⟩, v)) := by
  have hclose : (eq.workshop catalog).close (.dummy e (some image))
      ((eq.workshop catalog).note (Session.shutdownNotice DriverKind.dummy.name) w) =
    Emulator.saveImage eq.files image e.cells
      (eq.files.note (Session.shutdownNotice DriverKind.dummy.name) w) := rfl
  simp only [onImage, emulating, Session.shutdown, hclose]
  rcases Emulator.saveImage eq.files image e.cells _ with ⟨_ | _, v⟩ <;> rfl

/-- A shutdown that ends well has saved the cells. -/
theorem Lasts.shutdown (hlasts : eq.Lasts same) {e : Emulator} {w : ω} {u : Session Handle × ω}
    (h : Session.shutdown (eq.workshop catalog) (onImage chip image e c₀ x, w) = (.ok (), u)) :
    Replaced same image e.cells (eq.files.view w) (eq.files.view u.2) := by
  rw [shutdown_onImage] at h
  rcases hsave : Emulator.saveImage eq.files image e.cells
    (eq.files.note (Session.shutdownNotice DriverKind.dummy.name) w) with ⟨_ | _, v⟩
  · rw [hsave] at h
    cases h
  · rw [hsave] at h
    cases h
    have hreplaced := hlasts.saveImage hsave
    rwa [hlasts.note] at hreplaced

theorem Beside.left (h : eq.Beside same chip image c x s t) :
    ∃ e w, s = (onImage chip image e (some c) x, w) := by
  obtain ⟨e, _, w, _, _⟩ := h
  exact ⟨e, w, rfl⟩

theorem Beside.right (h : eq.Beside same chip image c x s t) :
    ∃ e w, t = (onImage chip image e (some c) x, w) := by
  obtain ⟨_, e, _, w, _⟩ := h
  exact ⟨e, w, rfl⟩

/-- A run that ends well leaves the chip at rest. -/
theorem Beside.rests (hlasts : eq.Lasts same) {ops : List Operation}
    (hops : ∀ op ∈ ops, op.Elsewhere same image) (h : eq.Beside same chip image c x s s)
    (hs : Queue.runAll (eq.workshop catalog) ops s = (.ok (), s')) :
    eq.Beside same chip image c x s' s' := by
  have hmay : ¬True → eq.files.Steady := fun hno => absurd trivial hno
  rcases h.runAll hlasts hmay hops hs with ⟨t', ht, h', _⟩ | ⟨_, e, t', ht⟩
  · rw [hs] at ht
    cases ht
    exact h'
  · rw [hs] at ht
    cases ht

/-- An image that could be saved once can be saved again. -/
theorem Beside.shutdown_of_steady (hsteady : eq.files.Steady)
    (h : eq.Beside same chip image c x s s') (h' : eq.Beside same chip image c x t t')
    {u : Session Handle × ω} (hs : Session.shutdown (eq.workshop catalog) s = (.ok (), u)) :
    (Session.shutdown (eq.workshop catalog) t').1 = .ok () := by
  obtain ⟨e, w, rfl⟩ := h.left
  obtain ⟨d, v, rfl⟩ := h'.right
  rw [shutdown_onImage] at hs ⊢
  rcases hsave : Emulator.saveImage eq.files image e.cells
    (eq.files.note (Session.shutdownNotice DriverKind.dummy.name) w) with ⟨_ | _, w'⟩
  · rw [hsave] at hs
    cases hs
  · obtain ⟨v', hsave'⟩ := hsteady.saveImage hsave d.cells
      (eq.files.note (Session.shutdownNotice DriverKind.dummy.name) v)
    rw [hsave']

/-- Twins leave the same files when both images have been saved. -/
theorem Beside.saved (hlasts : eq.Lasts same) (h : eq.Beside same chip image c x s t)
    (hs : Session.shutdown (eq.workshop catalog) s = (.ok (), s'))
    (ht : Session.shutdown (eq.workshop catalog) t = (.ok (), t')) :
    eq.files.view t'.2 = eq.files.view s'.2 := by
  obtain ⟨e, d, w, v, htwins⟩ := h
  cases htwins with
  | mk _ _ _ _ hrest halike hapart =>
    have hsaved := hlasts.shutdown hs
    have hsaved' := hlasts.shutdown ht
    have hcells : d.cells = e.cells := by rw [halike]
    funext q
    by_cases hq : same image q
    · rw [hsaved.own q hq, hsaved'.own q hq, hcells]
    · rw [hsaved.others q hq, hsaved'.others q hq, hapart q hq]

/-- An image that was saved is opened again with a chip that is a twin of the one before. -/
theorem Beside.reopened (hlasts : eq.Lasts same) (hchip : chip.Listed catalog)
    (himage : Nameable image) (h : eq.Beside same chip image c x s s)
    (hs : Session.shutdown (eq.workshop catalog) s = (.ok (), s')) {name : String}
    (hc : ∀ e, e.chip = chip → Emulator.programmer.selectChip catalog name e = (.ok c, e))
    {s₀ : Session Handle} (hs₀ : s₀.programmer = none) :
    ∃ t, Queue.runAll (eq.workshop catalog)
        (Queue.new (imageArgs chip image) name x).operations (s₀, s'.2) = (.ok (), t) ∧
      eq.Beside same chip image c x s t := by
  generalize hs₁ : s = s₁ at h
  obtain ⟨e, d, w, v, htwins⟩ := h
  subst hs₁
  cases htwins with
  | mk _ _ _ _ hrest =>
    have hsaved := hlasts.shutdown hs
    obtain ⟨v', hrun, hview⟩ := Queue.selections_of_loads (x := x) hlasts
      (asks_imageArgs hchip himage)
      (hlasts.loads_of_view (hsaved.own image (hlasts.same_refl image)) hrest.size) hs₀ (hc _ rfl)
    refine ⟨_, hrun, .mk e _ w v' (.mk e _ w v' hrest hrest.alike fun q hq => ?_)⟩
    rw [hview, hsaved.others q hq]

end Equipment

namespace Queue

variable {μ : Type} {shop : Workshop ω μ} {pre post ops : List Operation} {s t u : Session μ × ω}

theorem runAll_append (h : runAll shop pre s = (.ok (), t)) (post : List Operation) :
    runAll shop (pre ++ post) s = runAll shop post t := by
  induction pre generalizing s with
  | nil =>
    cases h
    rfl
  | cons op pre ih =>
    obtain ⟨s₁, hop, hpre⟩ := runAll_cons_ok.mp h
    rw [List.cons_append, runAll_cons, hop]
    exact ih hpre

theorem runAll_append_ok : runAll shop (pre ++ post) s = (.ok (), u) ↔
    ∃ t, runAll shop pre s = (.ok (), t) ∧ runAll shop post t = (.ok (), u) := by
  induction pre generalizing s with
  | nil => simp [runAll]
  | cons op pre ih =>
    rw [List.cons_append]
    simp only [runAll_cons_ok, ih]
    constructor
    · rintro ⟨t₁, hop, t, hpre, hpost⟩
      exact ⟨t, ⟨t₁, hop, hpre⟩, hpost⟩
    · rintro ⟨t, ⟨t₁, hop, hpre⟩, hpost⟩
      exact ⟨t₁, hop, t, hpre, hpost⟩

theorem verdicts_append (h : runAll shop pre s = (.ok (), t)) (post : List Operation) :
    verdicts shop (pre ++ post) s = verdicts shop pre s ++ verdicts shop post t := by
  induction pre generalizing s with
  | nil =>
    cases h
    rfl
  | cons op pre ih =>
    obtain ⟨s₁, hop, hpre⟩ := runAll_cons_ok.mp h
    simp only [List.cons_append, verdicts, hop, ih hpre, List.append_assoc]

theorem verdicts_selections (h : ∀ op ∈ ops, op.path? = none) : verdicts shop ops s = [] := by
  induction ops generalizing s with
  | nil => rfl
  | cons op ops ih =>
    have hop : op.verdict? shop (begun shop op s) = none := by
      have hpath := h op List.mem_cons_self
      cases op <;> first | rfl | cases hpath
    rw [verdicts, hop]
    rcases op.execute shop (begun shop op s) with ⟨_ | _, t⟩
    · rfl
    · exact ih fun op' hop' => h op' (List.mem_cons_of_mem op hop')

theorem run_of_ok {q : Queue} (h : runAll shop q.operations s = (.ok (), t)) :
    q.run shop s = Session.shutdown shop t := by
  unfold run
  rw [h]
  dsimp only
  rcases Session.shutdown shop t with ⟨r, v⟩
  rfl

theorem run_of_error {q : Queue} {e : Halt Failure}
    (h : runAll shop q.operations s = (.error e, t)) : (q.run shop s).1 = .error e := by
  unfold run
  rw [h]
  rfl

theorem run_eq_ok {q : Queue} : q.run shop s = (.ok (), u) ↔
    ∃ t, runAll shop q.operations s = (.ok (), t) ∧ Session.shutdown shop t = (.ok (), u) := by
  rcases hops : runAll shop q.operations s with ⟨e | _, t⟩
  · have hfails := run_of_error hops
    constructor
    · intro hrun
      rw [hrun] at hfails
      cases hfails
    · rintro ⟨_, hend, _⟩
      cases hend
  · rw [run_of_ok hops]
    constructor
    · exact fun hclosed => ⟨t, rfl, hclosed⟩
    · rintro ⟨_, hend, hclosed⟩
      cases hend
      exact hclosed

theorem run_snd (q : Queue) (s : Session μ × ω) :
    (q.run shop s).2 = (Session.shutdown shop (runAll shop q.operations s).2).2 := rfl

/-- A run on an emulated chip that is kept in an image. -/
def onImage (chip : Chip) (image name : String) (x : Strategy) (ops : List Operation) : Queue :=
  ops.foldl push (new (Equipment.imageArgs chip image) name x)

theorem operations_onImage (name : String) (x : Strategy) (ops : List Operation) :
    (onImage chip image name x ops).operations =
      (new (Equipment.imageArgs chip image) name x).operations ++ ops :=
  operations_foldl_push _ _

variable {name : String} {x : Strategy}

/-- The operations of a run on an image that ends well come between the selections, after which the
chip is at rest, and the shutdown. -/
theorem run_onImage_eq_ok (hlasts : eq.Lasts same) (hchip : chip.Listed catalog)
    (himage : Nameable image) {s u : Session Handle × ω}
    (h : (onImage chip image name x ops).run (eq.workshop catalog) s = (.ok (), u)) :
    ∃ s₀ t c, runAll (eq.workshop catalog)
          (new (Equipment.imageArgs chip image) name x).operations s = (.ok (), s₀) ∧
        eq.Beside same chip image c x s₀ s₀ ∧
        (∀ e, e.chip = chip → Emulator.programmer.selectChip catalog name e = (.ok c, e)) ∧
        runAll (eq.workshop catalog) ops s₀ = (.ok (), t) ∧
        Session.shutdown (eq.workshop catalog) t = (.ok (), u) := by
  obtain ⟨t, hrun, hclosed⟩ := run_eq_ok.mp h
  rw [operations_onImage] at hrun
  obtain ⟨s₀, hselections, hops⟩ := runAll_append_ok.mp hrun
  obtain ⟨e, c, w, rfl, hrest, hselect⟩ := selections_eq_ok hlasts hchip himage hselections
  refine ⟨_, t, c, hselections, .mk e e w w (.mk e e w w hrest (.refl e) fun _ _ => rfl), ?_, hops,
    hclosed⟩
  intro d hd
  obtain ⟨r, he, hd⟩ := Emulator.selectChip_of_chip catalog name (hd.trans hrest.chip_eq.symm)
  rw [hselect] at he
  cases he
  exact hd

theorem verdicts_onImage {s s₀ : Session Handle × ω} (h : runAll (eq.workshop catalog)
      (new (Equipment.imageArgs chip image) name x).operations s = (.ok (), s₀)) :
    verdicts (eq.workshop catalog) (onImage chip image name x ops).operations s =
      verdicts (eq.workshop catalog) ops s₀ := by
  rw [operations_onImage, verdicts_append h, verdicts_selections, List.nil_append]
  simp [new, Operation.path?]

/-- A run that opens the image again goes on as the one that saved it would have gone on. -/
theorem resumed_onImage (hlasts : eq.Lasts same) (hchip : chip.Listed catalog)
    (himage : Nameable image) (hops : ∀ op ∈ ops, op.Elsewhere same image)
    {s s' t : Session Handle × ω} (h : eq.Beside same chip image c x s s)
    (hselect : ∀ e, e.chip = chip → Emulator.programmer.selectChip catalog name e = (.ok c, e))
    (hclosed : Session.shutdown (eq.workshop catalog) s = (.ok (), s'))
    (hrun : runAll (eq.workshop catalog) ops s = (.ok (), t)) {s₀ : Session Handle}
    (hs₀ : s₀.programmer = none) :
    (∃ t', runAll (eq.workshop catalog) (onImage chip image name x ops).operations (s₀, s'.2) =
          (.ok (), t') ∧ eq.Beside same chip image c x t t' ∧
        verdicts (eq.workshop catalog) ops s = verdicts (eq.workshop catalog)
          (onImage chip image name x ops).operations (s₀, s'.2)) ∨
      ¬eq.files.Steady ∧
        ∃ e, ((onImage chip image name x ops).run (eq.workshop catalog) (s₀, s'.2)).1 =
          .error e := by
  obtain ⟨t₀, hselections, htwins⟩ := h.reopened hlasts hchip himage hclosed hselect hs₀
  rcases htwins.runAll hlasts Classical.not_not.mp hops hrun with
    ⟨t', hrun', hbeside, hverdicts⟩ | ⟨hsteady, e, t', hfails⟩
  · refine .inl ⟨t', ?_, hbeside, hverdicts.trans (verdicts_onImage hselections).symm⟩
    rw [operations_onImage]
    exact runAll_append_ok.mpr ⟨t₀, hselections, hrun'⟩
  · refine .inr ⟨hsteady, e, run_of_error (t := t') ?_⟩
    rw [operations_onImage, runAll_append hselections]
    exact hfails

/-- The image that is saved between the two runs is all that the second one needs of the first. -/
theorem cut_onImage (hlasts : eq.Lasts same) (hchip : chip.Listed catalog)
    (himage : Nameable image) (hpre : ∀ op ∈ pre, op.Elsewhere same image)
    (hpost : ∀ op ∈ post, op.Elsewhere same image) {s u : Session Handle × ω}
    (h : (onImage chip image name x (pre ++ post)).run (eq.workshop catalog) s = (.ok (), u))
    {s' : Session Handle} (hs' : s'.programmer = none) :
    let first := (onImage chip image name x pre).run (eq.workshop catalog) s
    let second := (onImage chip image name x post).run (eq.workshop catalog) (s', first.2.2)
    (eq.files.Steady → first.1 = .ok () ∧ second.1 = .ok ()) ∧
      (first.1 = .ok () → second.1 = .ok () →
        eq.files.view second.2.2 = eq.files.view u.2 ∧
          verdicts (eq.workshop catalog) (onImage chip image name x (pre ++ post)).operations s =
            verdicts (eq.workshop catalog) (onImage chip image name x pre).operations s ++
              verdicts (eq.workshop catalog) (onImage chip image name x post).operations
                (s', first.2.2)) := by
  obtain ⟨s₀, t, c, hselections, h₀, hselect, hrun, hclosed⟩ :=
    run_onImage_eq_ok hlasts hchip himage h
  obtain ⟨s₁, hrun₁, hrun₂⟩ := runAll_append_ok.mp hrun
  have h₁ := h₀.rests hlasts hpre hrun₁
  have hend := h₁.rests hlasts hpost hrun₂
  have hfirst : (onImage chip image name x pre).run (eq.workshop catalog) s =
      Session.shutdown (eq.workshop catalog) s₁ := by
    refine run_of_ok ?_
    rw [operations_onImage]
    exact runAll_append_ok.mpr ⟨s₀, hselections, hrun₁⟩
  rw [hfirst, verdicts_onImage hselections, verdicts_onImage hselections,
    verdicts_append hrun₁]
  rcases hclosed₁ : Session.shutdown (eq.workshop catalog) s₁ with ⟨e | _, s₂⟩
  -- The image could not be saved at the cut, though it could be at the end.
  · refine ⟨fun hsteady => ?_, nofun⟩
    have hsaves := hend.shutdown_of_steady hsteady h₁ hclosed
    rw [hclosed₁] at hsaves
    cases hsaves
  · rcases resumed_onImage hlasts hchip himage hpost h₁ hselect hclosed₁ hrun₂ hs' with
      ⟨t', hrun', hbeside, hverdicts⟩ | ⟨hsteady, e, hfails⟩
    · dsimp only
      rw [run_of_ok hrun', ← hverdicts]
      refine ⟨fun hsteady => ⟨rfl, ?_⟩, fun _ hclosed' => ⟨?_, rfl⟩⟩
      · exact hbeside.shutdown_of_steady hsteady hbeside hclosed
      · exact hbeside.saved hlasts hclosed (Prod.ext hclosed' rfl)
    · refine ⟨fun h => absurd h hsteady, fun _ hclosed' => ?_⟩
      rw [hfails] at hclosed'
      cases hclosed'

/-- However a run on an image ends, its emulated chip is still open when the programmer is shut
down, and a shutdown that ends well leaves its cells in the image. -/
theorem saved_onImage (hlasts : eq.Lasts same) (hchip : chip.Listed catalog)
    (himage : Nameable image) (hops : ∀ op ∈ ops, ∀ args, op ≠ .setProgrammer args)
    {s : Session Handle × ω} (hopened : (Session.setProgrammer (eq.workshop catalog)
      (Equipment.imageArgs chip image) (begun (eq.workshop catalog)
        (.setProgrammer (Equipment.imageArgs chip image)) s)).1 = .ok ()) :
    let t := (runAll (eq.workshop catalog) (onImage chip image name x ops).operations s).2
    ∃ e : Emulator, t.1.programmer = some ⟨DriverKind.dummy.name, Equipment.imageArgs chip image,
        .dummy e (some image)⟩ ∧
      e.chip = chip ∧ e.cells.size = chip.size ∧
      ((Session.shutdown (eq.workshop catalog) t).1 = .ok () →
        eq.files.view ((onImage chip image name x ops).run (eq.workshop catalog) s).2.2 image =
          .ok e.cells) := by
  intro t
  have hseated : Equipment.Seated chip image t := by
    rcases hset : Session.setProgrammer (eq.workshop catalog) (Equipment.imageArgs chip image)
      (begun (eq.workshop catalog) (.setProgrammer (Equipment.imageArgs chip image)) s) with ⟨r, s₁⟩
    rw [hset] at hopened
    cases hopened
    obtain ⟨e, y, w, rfl, hrest⟩ := Equipment.setProgrammer_eq_ok hchip himage hset
    have hrun : runAll (eq.workshop catalog) (onImage chip image name x ops).operations s =
        runAll (eq.workshop catalog) (.setChip name :: .setStrategy x :: ops)
          (Equipment.onImage chip image e none y, w) := by
      rw [operations_onImage]
      exact (runAll_cons _ _ _ _).trans (by rw [Operation.execute, hset]; rfl)
    have hothers : ∀ op ∈ Operation.setChip name :: .setStrategy x :: ops,
        ∀ args, op ≠ .setProgrammer args := by
      rintro op hop args rfl
      simp only [List.mem_cons, reduceCtorEq, false_or] at hop
      exact hops _ hop args rfl
    have ht : t = _ := congrArg Prod.snd hrun
    rw [ht]
    exact Equipment.Seated.runAll hothers ⟨e, none, y, rfl, hrest.toSteady⟩
  obtain ⟨e, c, y, ht, hsteady⟩ := hseated
  refine ⟨e, by rw [ht]; rfl, hsteady.chip_eq, hsteady.size, fun hclosed => ?_⟩
  have hshut : Session.shutdown (eq.workshop catalog) (Equipment.onImage chip image e c y, t.2) =
      (.ok (), ((onImage chip image name x ops).run (eq.workshop catalog) s).2) := by
    rw [run_snd, ← ht]
    exact Prod.ext hclosed rfl
  exact (hlasts.shutdown hshut).own image (hlasts.same_refl image)

/-- An emulated chip takes its memory from run to run in its image. Where a whole run ends well and
so do the two that it is cut into, they leave the same files and find the same; the two do end well
if writing a file depends on its path alone. However a run has ended, an image that could be saved
holds the cells. -/
theorem memory_lasts (hlasts : eq.Lasts same) (hchip : chip.Listed catalog)
    (himage : Nameable image) (name : String) (x : Strategy) (s : Session Handle × ω) :
    let shop := eq.workshop catalog
    let queue := onImage chip image name x
    (∀ pre post, (∀ op ∈ pre ++ post, op.Elsewhere same image) → ∀ s' : Session Handle,
        s'.programmer = none →
      let whole := (queue (pre ++ post)).run shop s
      let first := (queue pre).run shop s
      let second := (queue post).run shop (s', first.2.2)
      whole.1 = .ok () →
        (eq.files.Steady → first.1 = .ok () ∧ second.1 = .ok ()) ∧
          (first.1 = .ok () → second.1 = .ok () →
            eq.files.view second.2.2 = eq.files.view whole.2.2 ∧
              verdicts shop (queue (pre ++ post)).operations s =
                verdicts shop (queue pre).operations s ++
                  verdicts shop (queue post).operations (s', first.2.2))) ∧
      ∀ ops, (∀ op ∈ ops, ∀ args, op ≠ .setProgrammer args) →
        let opening := Operation.setProgrammer (Equipment.imageArgs chip image)
        let t := (runAll shop (queue ops).operations s).2
        (opening.execute shop (begun shop opening s)).1 = .ok () →
          ∃ e : Emulator, t.1.programmer = some ⟨DriverKind.dummy.name,
              Equipment.imageArgs chip image, .dummy e (some image)⟩ ∧
            e.chip = chip ∧ e.cells.size = chip.size ∧
            ((Session.shutdown shop t).1 = .ok () →
              eq.files.view ((queue ops).run shop s).2.2 image = .ok e.cells) := by
  refine ⟨fun pre post hops s' hs' h => ?_, fun ops hops hopened => ?_⟩
  · exact cut_onImage hlasts hchip himage (fun op hop => hops op (List.mem_append_left post hop))
      (fun op hop => hops op (List.mem_append_right pre hop)) (Prod.ext h rfl) hs'
  · exact saved_onImage hlasts hchip himage hops hopened

/-- A short file is written over a short image, compared with the chip and read back after the
cut. A run that ends with a missing file saves the image as well. -/
theorem memory_lasts_sample :
    let eq := Equipment.shelf []
    let shop := eq.workshop [Chip.sample]
    let queue := onImage Chip.sample "p" "sample" .default
    let w := [("in", Bytes.filled 6 0x0F), ("p", Bytes.filled 12 0x3C)]
    let whole := (queue ([.write "in"] ++ [.verify "in", .read "out"])).run shop ({}, w)
    let first := (queue [.write "in"]).run shop ({}, w)
    let second := (queue [.verify "in", .read "out"]).run shop ({}, first.2.2)
    let failed := (queue [.write "in", .verify "none", .read "out"]).run shop ({}, w)
    whole.1 = .ok () ∧ first.1 = .ok () ∧ second.1 = .ok () ∧ failed.1 ≠ .ok () ∧
      eq.files.view second.2.2 = eq.files.view whole.2.2 ∧
      verdicts shop (queue ([.write "in"] ++ [.verify "in", .read "out"])).operations ({}, w) =
        verdicts shop (queue [.write "in"]).operations ({}, w) ++
          verdicts shop (queue [.verify "in", .read "out"]).operations ({}, first.2.2) ∧
      ∃ e : Emulator, e.cells.size = 32 ∧ eq.files.view failed.2.2 "p" = .ok e.cells := by
  have hlisted : Chip.sample.Listed [Chip.sample] := ⟨by decide, by decide, by decide⟩
  have himage : Nameable "p" := ⟨by decide, by decide⟩
  have helsewhere : ∀ op ∈ [Operation.write "in"] ++ [.verify "in", .read "out"],
      op.Elsewhere Eq "p" := by
    simp [Operation.Elsewhere, Operation.path?]
  obtain ⟨hcut, hsaved⟩ := memory_lasts (Equipment.shelf_lasts []) hlisted himage "sample" .default
    ({}, [("in", Bytes.filled 6 0x0F), ("p", Bytes.filled 12 0x3C)])
  have hcuts := hcut _ _ helsewhere {} rfl
  dsimp only at hcuts hsaved ⊢
  have hwhole := hcuts (by decide +kernel)
  obtain ⟨hfirst, hsecond⟩ := hwhole.1 (Equipment.shelf_steady [])
  obtain ⟨hview, hverdicts⟩ := hwhole.2 hfirst hsecond
  obtain ⟨e, _, _, hsize, hcells⟩ := hsaved [.write "in", .verify "none", .read "out"] (by simp)
    (by decide +kernel)
  have hholds := hcells (by decide +kernel)
  exact ⟨by decide +kernel, hfirst, hsecond, by decide +kernel, hview, hverdicts, e, hsize, hholds⟩

end Queue
end NorFlash
