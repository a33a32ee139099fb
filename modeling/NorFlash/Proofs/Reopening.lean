import NorFlash.Proofs.AtRest
import NorFlash.Proofs.Course
import NorFlash.Proofs.Phrase
import NorFlash.Proofs.Storage

namespace NorFlash

open Act (Mirrors)

/-- The chip is found among the known ones by its short name, and that name can stand in a parameter
string. -/
structure Chip.Listed (catalog : List Chip) (c : Chip) : Prop where
  found : findChip? catalog c.id = some c
  id_ne : c.id ≠ ""
  id_unbroken : Parameters.Unbroken c.id

theorem Chip.catalog_listed : ∀ c ∈ Chip.catalog, c.Listed Chip.catalog := by
  have hfound : ∀ c ∈ Chip.catalog, findChip? Chip.catalog c.id = some c := by decide +kernel
  have hid : ∀ c ∈ Chip.catalog, c.id ≠ "" ∧ Parameters.Unbroken c.id := by decide +kernel
  intro c hc
  obtain ⟨hne, hunbroken⟩ := hid c hc
  exact ⟨hfound c hc, hne, hunbroken⟩

/-- A path that can stand in a parameter string. -/
structure Nameable (path : String) : Prop where
  ne : path ≠ ""
  unbroken : Parameters.Unbroken path

namespace Equipment

/-- The parameters of an emulated chip that is kept in an image. -/
def imageArgs (chip : Chip) (image : String) : String :=
  "dummy:chip=" ++ chip.id ++ ",image=" ++ image

variable {ω : Type} {eq : Equipment ω} {same : String → String → Prop} {catalog : List Chip}
  {chip : Chip} {image : String}

theorem imageArgs_eq (hchip : chip.Listed catalog) (himage : Nameable image) :
    ∃ p : Parameters.Phrase, p.text = imageArgs chip image ∧ p.name = "dummy" ∧
      p.pairs = [("chip", chip.id), ("image", image)] := by
  have hcolon : ∀ c ∈ [':'], Parameters.isSeparator c = true := by simp [Parameters.isSeparator]
  have hcomma : ∀ c ∈ [','], Parameters.isSeparator c = true := by simp [Parameters.isSeparator]
  refine ⟨⟨⟨[], nofun⟩, "dummy",
    [(⟨[':'], hcolon⟩, .pair "chip" chip.id (by decide) (by decide) hchip.id_unbroken),
      (⟨[','], hcomma⟩, .pair "image" image (by decide) (by decide) himage.unbroken)],
    ⟨[], nofun⟩, by decide, by decide, by simp⟩, ?_, rfl, rfl⟩
  apply String.toList_inj.mp
  simp [Parameters.Phrase.text, Parameters.Phrase.tail, Parameters.Item.text, imageArgs]

theorem programmerName_imageArgs (hchip : chip.Listed catalog) (himage : Nameable image) :
    Parameters.programmerName (imageArgs chip image) = "dummy" := by
  obtain ⟨p, htext, hname, _⟩ := imageArgs_eq hchip himage
  rw [← htext, p.programmerName_text, hname]

theorem value?_imageArgs (hchip : chip.Listed catalog) (himage : Nameable image) (key : String) :
    Parameters.value? (imageArgs chip image) key =
      if key = "chip" then some chip.id else if key = "image" then some image else none := by
  obtain ⟨p, htext, _, hpairs⟩ := imageArgs_eq hchip himage
  have htest {name value : String} (h : value ≠ "") :
      (name == key && value != "") = decide (key = name) := by
    rw [Bool.eq_iff_iff, Bool.and_eq_true, beq_iff_eq, bne_iff_ne, decide_eq_true_iff]
    exact ⟨fun hk => hk.1.symm, fun hk => ⟨hk.symm, h⟩⟩
  rw [← htext, p.value?_text, Parameters.Phrase.first?, hpairs]
  simp only [List.find?_cons, List.find?_nil, htest hchip.id_ne, htest himage.ne]
  by_cases hc : key = "chip"
  · simp only [hc, decide_true, Option.map_some, if_true]
  · by_cases hi : key = "image"
    · subst hi
      rfl
    · simp only [hc, hi, decide_false, Option.map_none, if_false]

/-- The parameters ask for this emulated chip, ready at once, to be kept in this image. -/
structure Asks (catalog : List Chip) (args : String) (chip : Chip) (image : Option String) :
    Prop where
  name : Parameters.programmerName args = DriverKind.dummy.name
  emulator : emulator catalog args = .ok (Emulator.ofChip chip)
  image : Parameters.value? args "image" = image
  voltage : Parameters.value? args "voltage" = none

theorem asks_of_values {args : String} {img : Option String}
    (hname : Parameters.programmerName args = DriverKind.dummy.name)
    (hchip : Parameters.value? args "chip" = some chip.id)
    (hfound : findChip? catalog chip.id = some chip)
    (hbusy : Parameters.value? args "busy" = none) (himage : Parameters.value? args "image" = img)
    (hvoltage : Parameters.value? args "voltage" = none) : Asks catalog args chip img := by
  refine ⟨hname, ?_, himage, hvoltage⟩
  have hpolls : busyPolls args = .ok 0 := by rw [busyPolls, hbusy]
  rw [emulator, hchip, Option.getD_some, hfound, hpolls]
  rfl

theorem asks_imageArgs (hchip : chip.Listed catalog) (himage : Nameable image) :
    Asks catalog (imageArgs chip image) chip (some image) := by
  have hvalue := value?_imageArgs hchip himage
  exact asks_of_values (programmerName_imageArgs hchip himage) (hvalue _) hchip.found (hvalue _)
    (hvalue _) (hvalue _)

/-- An emulated chip with the image laid over it, if it is kept in one. -/
def loadFrom (eq : Equipment ω) (image : Option String) (e : Emulator) : Act ω Error Emulator :=
  match image with
  | none => pure e
  | some path => e.loadImage eq.files path

variable {args : String} {img : Option String}

/-- The parameters open the emulated chip on its image. -/
theorem openProgrammer_of_asks (h : Asks catalog args chip img) (w : ω) :
    (eq.workshop catalog).openProgrammer args w =
      match eq.loadFrom img (Emulator.ofChip chip)
        (eq.files.note (.debug fun _ => s!"dummy: emulating {chip.id}") w) with
      | (.ok e, w') =>
        (.ok ⟨DriverKind.dummy.name, args, .dummy e img⟩,
          eq.files.note (.info fun _ => s!"Using programmer {DriverKind.dummy.name}") w')
      | (.error f, w') => (.error (.core f), w') := by
  have hdriver : (eq.workshop catalog).drivers.find? (fun d => d.name == DriverKind.dummy.name) =
      some ⟨DriverKind.dummy.name, eq.connect catalog .dummy⟩ := by
    rfl
  have hnamed : (eq.workshop catalog).openProgrammer args = (do
      let handle ← eq.connect catalog .dummy args
      (eq.workshop catalog).tell (.info fun _ => s!"Using programmer {DriverKind.dummy.name}")
      return ⟨DriverKind.dummy.name, args, handle⟩) := by
    have hname : (DriverKind.dummy.name == automatic) = false := by decide
    unfold Workshop.openProgrammer Workshop.openNamed
    rw [h.name]
    dsimp only
    rw [hname, if_neg Bool.false_ne_true, hdriver]
  have hopen : eq.connect catalog .dummy args = (do
      Act.modify (eq.files.note (.debug fun _ => s!"dummy: emulating {chip.id}"))
      let e ← (eq.loadFrom img (Emulator.ofChip chip)).mapError .core
      return .dummy e img) := by
    change eq.openDummy catalog args = _
    unfold openDummy
    rw [h.emulator, h.image]
    cases img <;> rfl
  rw [hnamed, hopen]
  simp only [Act.bind_apply, Act.modify_apply, Act.mapError]
  rcases eq.loadFrom img (Emulator.ofChip chip) _ with ⟨_ | _, _⟩ <;> rfl

/-- What is opened is at rest. -/
theorem openProgrammer_eq_ok (hchip : chip.Listed catalog)
    (himage : Nameable image) {o : Opened Handle} {w w' : ω}
    (h : (eq.workshop catalog).openProgrammer (imageArgs chip image) w = (.ok o, w')) :
    ∃ e, o = ⟨DriverKind.dummy.name, imageArgs chip image, .dummy e (some image)⟩ ∧
      e.AtRest chip := by
  rw [openProgrammer_of_asks (asks_imageArgs hchip himage)] at h
  rcases hload : eq.loadFrom (some image) (Emulator.ofChip chip)
    (eq.files.note (.debug fun _ => s!"dummy: emulating {chip.id}") w) with ⟨_ | e, w₁⟩
  · rw [hload] at h
    cases h
  · rw [hload] at h
    cases h
    refine ⟨e, rfl, ?_⟩
    rcases Emulator.loadImage_eq_ok hload with rfl | ⟨content, rfl⟩
    · exact Emulator.atRest_ofChip chip
    · exact Emulator.atRest_load chip content

/-- Wherever files read like this, the chip is loaded with these cells. -/
def Loads (eq : Equipment ω) (img : Option String) (chip : Chip) (w : ω) (e : Emulator) : Prop :=
  ∀ v, eq.files.view v = eq.files.view w → ∃ v', eq.loadFrom img (Emulator.ofChip chip) v =
    (.ok e, v') ∧ eq.files.view v' = eq.files.view w

variable {w : ω} {e : Emulator}

theorem Loads.of_view {w' : ω} (h : eq.Loads img chip w e)
    (hview : eq.files.view w' = eq.files.view w) : eq.Loads img chip w' e := by
  intro v hv
  rw [hview] at hv ⊢
  exact h v hv

/-- An image that fills the chip becomes its cells. -/
theorem Lasts.loads_of_view (hlasts : eq.Lasts same) {cells : Bytes}
    (hcells : eq.files.view w image = .ok cells) (hsize : cells.size = chip.size) :
    eq.Loads (some image) chip w { Emulator.ofChip chip with cells } := by
  intro v hv
  obtain ⟨v', hload, hview⟩ :=
    hlasts.loadImage_of_view ((congrFun hv image).trans hcells) (Emulator.ofChip chip)
  rw [Emulator.load_eq hsize] at hload
  exact ⟨v', hload, hview.trans hv⟩

theorem Lasts.openProgrammer_of_loads (hlasts : eq.Lasts same) (h : Asks catalog args chip img)
    (hload : eq.Loads img chip w e) :
    ∃ w', (eq.workshop catalog).openProgrammer args w =
        (.ok ⟨DriverKind.dummy.name, args, .dummy e img⟩, w') ∧
      eq.files.view w' = eq.files.view w := by
  obtain ⟨w₁, hrun, hview⟩ :=
    hload _ (hlasts.note (.debug fun _ => s!"dummy: emulating {chip.id}") w)
  rw [openProgrammer_of_asks h, hrun]
  exact ⟨_, rfl, (hlasts.note _ _).trans hview⟩

/-- An emulated chip as a handle, in a world where files read like this. -/
def Plugged (eq : Equipment ω) (image : Option String) (v : String → Except OsError Bytes)
    (s : Handle × ω) (e : Emulator) : Prop :=
  s.1 = .dummy e image ∧ eq.files.view s.2 = v

variable {v : String → Except OsError Bytes}

/-- Work on an emulated chip is the same as on the chip alone, and reaches no file. -/
theorem Lasts.plugged (h : eq.Lasts same) :
    eq.programmer.Parallel (eq.Plugged img v) Emulator.programmer where
  execute c := by
    rintro ⟨_, w⟩ e ⟨rfl, rfl⟩
    exact ⟨rfl, rfl, h.note _ w⟩
  delay _ := by
    rintro ⟨_, w⟩ e ⟨rfl, rfl⟩
    exact ⟨rfl, rfl⟩
  report p := by
    rintro ⟨_, w⟩ e ⟨rfl, rfl⟩
    exact ⟨rfl, h.report p w⟩
  note n := by
    rintro ⟨_, w⟩ e ⟨rfl, rfl⟩
    exact ⟨rfl, h.note n w⟩
  maxRead := by
    rintro ⟨_, w⟩ e ⟨rfl, rfl⟩
    rfl
  maxWrite := by
    rintro ⟨_, w⟩ e ⟨rfl, rfl⟩
    rfl
  patience := rfl

/-- A step on an emulated chip in its workshop that has a counterpart on the chip alone. -/
theorem plugged_run {ε α : Type} {x : Act (Handle × ω) ε α} {y : Act Emulator ε α}
    (hxy : ∀ v, Mirrors (eq.Plugged img v) x y) {r : Except ε α} {e e' : Emulator}
    (hy : y e = (r, e')) (w : ω) :
    ∃ w', x (.dummy e img, w) = (r, (.dummy e' img, w')) ∧ eq.files.view w' = eq.files.view w := by
  obtain ⟨r', ⟨h, w'⟩, e'', hx, hy', rfl, hview⟩ :=
    (hxy (eq.files.view w)).ends (s := (.dummy e img, w)) ⟨rfl, rfl⟩
  rw [hy] at hy'
  cases hy'
  exact ⟨w', hx, hview⟩

/-- Work with the chip comes to what it comes to on the chip alone. -/
theorem Lasts.chipWork (h : eq.Lasts same) (img : Option String) {α : Type}
    {X : ∀ {σ : Type}, Programmer σ → Act σ Stop α} (hX : Restful X) {r : Except Stop α}
    {e' : Emulator} (hr : X Emulator.programmer e = (r, e')) (w : ω) :
    ∃ w', Session.chipWork (X eq.programmer) (.dummy e img, w) =
        (r.mapError (Halt.map .core), (.dummy e' img, w')) ∧
      eq.files.view w' = eq.files.view w := by
  obtain ⟨w', hx, hview⟩ := plugged_run (fun _ => hX.mirrors h.plugged) hr w
  refine ⟨w', ?_, hview⟩
  unfold Session.chipWork Act.mapError
  rw [hx]
  cases r <;> rfl

/-- What is selected is told by the emulated chip alone, which stays as it is. -/
theorem Lasts.selecting (h : eq.Lasts same) (img : Option String) {name : String}
    (hvoltage : Parameters.value? args "voltage" = none) {r : Except (Halt Failure) Chip}
    (hr : Emulator.programmer.selectChip catalog name e = (r, e)) (w : ω) :
    ∃ w', Session.selecting (eq.workshop catalog) name args (.dummy e img, w) =
        (r, (.dummy e img, w')) ∧ eq.files.view w' = eq.files.view w := by
  obtain ⟨w', hx, hview⟩ := plugged_run (fun _ => h.plugged.selectChip catalog name) hr w
  refine ⟨w', ?_, hview⟩
  cases r with
  | error f => exact Act.bind_error hx
  | ok c =>
    refine (Act.bind_ok hx).trans ?_
    rw [Session.checkVoltage, hvoltage]
    rfl

/-- A session with an emulated chip. -/
def emulating (args : String) (img : Option String) (e : Emulator) (c : Option Chip)
    (x : Strategy) : Session Handle :=
  ⟨some ⟨DriverKind.dummy.name, args, .dummy e img⟩, c, x⟩

/-- A session with the emulated chip that is kept in the image. -/
def onImage (chip : Chip) (image : String) (e : Emulator) (c : Option Chip) (x : Strategy) :
    Session Handle :=
  emulating (imageArgs chip image) (some image) e c x

variable {name : String} {x y : Strategy} {c c₀ : Option Chip}

theorem setProgrammer_eq_ok (hchip : chip.Listed catalog) (himage : Nameable image)
    {s t : Session Handle × ω}
    (h : Session.setProgrammer (eq.workshop catalog) (imageArgs chip image) s = (.ok (), t)) :
    ∃ e y w, t = (onImage chip image e none y, w) ∧ e.AtRest chip := by
  obtain ⟨_, ⟨s', w⟩, hs, _⟩ := Act.bind_eq_ok h
  rw [Session.setProgrammer_ok hs] at h
  rcases hopen : (eq.workshop catalog).openProgrammer (imageArgs chip image) w with ⟨_ | o, w'⟩
  · rw [hopen] at h
    cases h
  · rw [hopen] at h
    cases h
    obtain ⟨e, rfl, hrest⟩ := openProgrammer_eq_ok hchip himage hopen
    exact ⟨e, s'.strategy, w', rfl, hrest⟩

theorem Lasts.setProgrammer_of_loads (hlasts : eq.Lasts same) (h : Asks catalog args chip img)
    (hload : eq.Loads img chip w e) {s : Session Handle} (hs : s.programmer = none) :
    ∃ w', Session.setProgrammer (eq.workshop catalog) args (s, w) =
        (.ok (), (emulating args img e none s.strategy, w')) ∧
      eq.files.view w' = eq.files.view w := by
  obtain ⟨programmer, c, y⟩ := s
  cases hs
  obtain ⟨w', hopen, hview⟩ := hlasts.openProgrammer_of_loads h hload
  refine ⟨w', ?_, hview⟩
  rw [Session.setProgrammer_ok rfl, hopen]
  rfl

/-- A selection on an emulated chip leaves it alone. -/
theorem Lasts.setChip (hlasts : eq.Lasts same) (img : Option String) (c₀ : Option Chip)
    (x : Strategy) (hvoltage : Parameters.value? args "voltage" = none)
    {r : Except (Halt Failure) Chip} (hr : Emulator.programmer.selectChip catalog name e = (r, e))
    (w : ω) :
    ∃ w', Session.setChip (eq.workshop catalog) name (emulating args img e c₀ x, w) =
        (match r with
        | .ok c => (.ok (), (emulating args img e (some c) x, w'))
        | .error f => (.error f, (emulating args img e c₀ x, w'))) ∧
      eq.files.view w' = eq.files.view w := by
  obtain ⟨w', hselect, hview⟩ := hlasts.selecting img hvoltage hr w
  have hwith : Session.withProgrammer (Session.selecting (eq.workshop catalog) name)
      (emulating args img e c₀ x, w) = (r, (emulating args img e c₀ x, w')) := by
    simp only [emulating, Session.withProgrammer, hselect]
  refine ⟨w', ?_, hview⟩
  cases r with
  | ok c => exact Act.bind_ok hwith
  | error f => exact Act.bind_error hwith

end Equipment

namespace Queue

open Equipment

variable {ω μ : Type} {shop : Workshop ω μ} {eq : Equipment ω} {same : String → String → Prop}
  {catalog : List Chip} {chip : Chip} {image name : String} {x : Strategy}

theorem runAll_cons (shop : Workshop ω μ) (op : Operation) (ops : List Operation)
    (s : Session μ × ω) : runAll shop (op :: ops) s =
      match op.execute shop (begun shop op s) with
      | (.ok _, t) => runAll shop ops t
      | (.error e, t) => (.error e, told shop (failureNotices op ops e) t) := by
  cases hop : op.execute shop (begun shop op s) with
  | mk r t =>
    simp only [begun] at hop
    cases r <;> simp only [runAll, hop, told]

theorem runAll_cons_ok {op : Operation} {ops : List Operation} {s u : Session μ × ω} :
    runAll shop (op :: ops) s = (.ok (), u) ↔
      ∃ t, op.execute shop (begun shop op s) = (.ok (), t) ∧ runAll shop ops t = (.ok (), u) := by
  rw [runAll_cons]
  rcases op.execute shop (begun shop op s) with ⟨_ | _, t⟩ <;> simp

/-- What the three selections come to, if they end well. -/
theorem selections_eq_ok (hlasts : eq.Lasts same) (hchip : chip.Listed catalog)
    (himage : Nameable image) {s t : Session Handle × ω}
    (h : runAll (eq.workshop catalog) (new (imageArgs chip image) name x).operations s =
      (.ok (), t)) :
    ∃ e c w, t = (onImage chip image e (some c) x, w) ∧ e.AtRest chip ∧
      Emulator.programmer.selectChip catalog name e = (.ok c, e) := by
  obtain ⟨s₁, hprogrammer, h⟩ := runAll_cons_ok.mp h
  obtain ⟨s₂, hselect, h⟩ := runAll_cons_ok.mp h
  obtain ⟨s₃, hstrategy, h⟩ := runAll_cons_ok.mp h
  obtain ⟨e, y, w, rfl, hrest⟩ := setProgrammer_eq_ok hchip himage hprogrammer
  obtain ⟨r, hr, _⟩ := Emulator.selectChip_of_chip (d := e) catalog name rfl
  have hvoltage := (asks_imageArgs hchip himage).voltage
  obtain ⟨w', hset, _⟩ := hlasts.setChip (some image) none y hvoltage hr
    (begun (eq.workshop catalog) (.setChip name) (onImage chip image e none y, w)).2
  have hends := hset.symm.trans hselect
  cases r with
  | error f => cases hends
  | ok c =>
    cases hends
    cases hstrategy
    cases h
    exact ⟨e, c, _, rfl, hrest, hr⟩

/-- The selections end well if the chip is found. -/
theorem selections_of_loads (hlasts : eq.Lasts same) {args : String} {img : Option String}
    (h : Asks catalog args chip img) {e : Emulator} {w : ω} (hload : eq.Loads img chip w e)
    {s : Session Handle} (hs : s.programmer = none) {c : Chip}
    (hc : Emulator.programmer.selectChip catalog name e = (.ok c, e)) :
    ∃ w', runAll (eq.workshop catalog) (new args name x).operations (s, w) =
        (.ok (), (emulating args img e (some c) x, w')) ∧ eq.files.view w' = eq.files.view w := by
  have hbegun (op : Operation) (s : Session Handle) (w : ω) :
      eq.files.view (begun (eq.workshop catalog) op (s, w)).2 = eq.files.view w := hlasts.note _ w
  obtain ⟨w₁, hprogrammer, hview₁⟩ := hlasts.setProgrammer_of_loads h
    (hload.of_view (hbegun (.setProgrammer args) s w)) hs
  obtain ⟨w₂, hselect, hview₂⟩ := hlasts.setChip img none s.strategy h.voltage hc
    (begun (eq.workshop catalog) (.setChip name)
      (emulating args img e none s.strategy, w₁)).2
  refine ⟨_, runAll_cons_ok.mpr ⟨_, hprogrammer, runAll_cons_ok.mpr ⟨_, hselect,
    runAll_cons_ok.mpr ⟨_, rfl, rfl⟩⟩⟩, ?_⟩
  calc
    _ = eq.files.view w₂ := (hlasts.note _ _).trans (hbegun (.setStrategy x) _ w₂)
    _ = eq.files.view w₁ := hview₂.trans (hbegun (.setChip name) _ w₁)
    _ = eq.files.view w := hview₁.trans (hbegun _ s w)

end Queue
end NorFlash
