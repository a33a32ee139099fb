import NorFlash.Proofs.Memory
import NorFlash.Proofs.Writing

namespace NorFlash

namespace Emulator

variable {chip : Chip} {e : Emulator} {plan : Plan} {data : Bytes}

theorem byteAt_ofChip {i : Nat} (h : i < chip.size) : (ofChip chip).cells.byteAt i = erased :=
  Bytes.byteAt_filled h

theorem AtRest.emulates (h : e.AtRest chip) : e.Emulates chip where
  chip := h.chip_eq
  size := h.size
  busyPolls := by rw [h.busyPolls]; decide
  busy := by rw [h.busy]; decide

theorem AtRest.readChip (h : e.AtRest chip) (hc : chip.Accepted) :
    ∃ e', programmer.readChip chip e = (.ok e.cells, e') := by
  have hread : 0 < e.maxRead := by rw [h.maxRead]; decide
  have hrun : Performs id True (programmer.readChip chip) e _ _ :=
    (programmer_carries True).readChip h.size hc.page_pos hc.size_lt.le fun _ => hread
  obtain ⟨a, e', hx, _, _, rfl⟩ := hrun.exists_ok trivial
  exact ⟨e', hx⟩

/-- Data at the front of the chip stands there after it was written. -/
theorem AtRest.write (h : e.AtRest chip) (hc : chip.Accepted) (hr : chip.Regular)
    (hin : data.size ≤ chip.size) (hplan : Plan.make chip.regions 0 data.size false = .ok plan) :
    ∃ stats e', programmer.write chip .wipeByBiggestErases 0 data e = (.ok stats, e') ∧
      ∀ i < data.size, e'.cells.byteAt i = data.byteAt i := by
  have hwrite : 0 < e.maxWrite := by rw [h.maxWrite]; exact hc.page_pos
  have hwritable := h.emulates.writable hc hr (by omega) hplan
  have hrun : Performs id True (programmer.write chip .wipeByBiggestErases 0 data) e _
      (fun _ _ => True) :=
    (programmer_carries True).write hwritable hplan (fun _ hs => nomatch hs) fun _ => hwrite
  obtain ⟨stats, e', hx, ha, _⟩ := hrun.exists_ok trivial
  refine ⟨stats, e', hx, fun i hi => ?_⟩
  refine (congrFun ha.content i).trans ((hwritable.effects_biggest hwrite i).trans ?_)
  rw [if_pos ⟨Nat.zero_le i, by omega⟩]
  rfl

end Emulator

namespace Equipment

variable {ω α : Type} {eq : Equipment ω} {same : String → String → Prop} {catalog : List Chip}
  {chip : Chip} {args path : String} {img : Option String} {e e' : Emulator} {x : Strategy} {w : ω}

theorem aside_ok {a : α} {y : Act ω Failure α} {w' : ω} (h : y w = (.ok a, w')) (s : Handle) :
    Session.aside y (s, w) = (.ok a, (s, w')) := by
  simp only [Session.aside, h]

theorem withChip_emulating {f : Chip → Session.Work ω Handle α} {r : Except (Halt Failure) α}
    {w' : ω} (hf : f chip (.dummy e img, w) = (r, (.dummy e' img, w'))) :
    Session.withChip f (emulating args img e (some chip) x, w) =
      (r, (emulating args img e' (some chip) x, w')) := by
  simp only [emulating, Session.withChip, Session.withProgrammer, hf]

/-- A file that fits is loaded whole. -/
theorem Lasts.load_of_view (hlasts : eq.Lasts same) {data : Bytes}
    (hdata : eq.files.view w path = .ok data) {size : Nat} (hsize : data.size ≤ size) :
    ∃ w', Image.load eq.files path size w = (.ok data, w') ∧
      eq.files.view w' = eq.files.view w := by
  unfold Image.load
  rcases hread : eq.files.read path w with ⟨r, w₁⟩
  rw [FileStore.view, hread] at hdata
  cases hdata
  have hfits : ¬size < data.size := by omega
  simp only [if_neg hfits]
  exact ⟨_, rfl, (hlasts.note _ _).trans (hlasts.view_of_read hread)⟩

theorem Lasts.loads_of_missing (hlasts : eq.Lasts same)
    (hmissing : eq.files.view w path = .error .notFound) :
    eq.Loads (some path) chip w (Emulator.ofChip chip) := by
  intro v hv
  rw [← hv] at hmissing
  unfold loadFrom Emulator.loadImage
  rcases hread : eq.files.read path v with ⟨r, v'⟩
  rw [FileStore.view, hread] at hmissing
  cases hmissing
  dsimp only
  rw [hread]
  exact ⟨_, rfl, (hlasts.note _ _).trans ((hlasts.view_of_read hread).trans hv)⟩

/-- A file is written to the chip, and every file reads as before. -/
theorem Lasts.write_emulating (hlasts : eq.Lasts same) (catalog : List Chip) (args : String)
    (img : Option String) {data : Bytes} (hdata : eq.files.view w path = .ok data)
    (hsize : data.size ≤ chip.size) {stats : WriteStats}
    (hrun : Emulator.programmer.write chip x 0 data e = (.ok stats, e')) :
    ∃ w', (Operation.write path).execute (eq.workshop catalog)
        (emulating args img e (some chip) x, w) =
          (.ok (), (emulating args img e' (some chip) x, w')) ∧
      eq.files.view w' = eq.files.view w := by
  obtain ⟨w₁, hload, hview₁⟩ := hlasts.load_of_view hdata hsize
  obtain ⟨w₂, hwrite, hview₂⟩ := hlasts.chipWork img (restful_write chip x data) hrun
    (eq.files.note (Session.writingNotice path data.size x) w₁)
  have hwork : Session.writeWork (eq.workshop catalog) path x chip (.dummy e img, w) =
      (.ok stats, (.dummy e' img, eq.files.note (Session.writtenNotice path stats) w₂)) :=
    (Act.bind_ok (aside_ok hload _)).trans
      ((Act.bind_ok rfl).trans ((Act.bind_ok hwrite).trans rfl))
  refine ⟨_, Act.bind_ok ((Act.bind_ok rfl).trans (withChip_emulating hwork)), ?_⟩
  exact (hlasts.note _ _).trans (hview₂.trans ((hlasts.note _ _).trans hview₁))

/-- The cells are dumped into a file that can be written. -/
theorem Lasts.read_emulating (hlasts : eq.Lasts same) (catalog : List Chip) (args : String)
    (img : Option String) (x : Strategy)
    (hwrites : ∀ data w, (eq.files.write path data w).1 = .ok ()) {data : Bytes}
    (hrun : Emulator.programmer.readChip chip e = (.ok data, e')) (w : ω) :
    ∃ w', (Operation.read path).execute (eq.workshop catalog)
        (emulating args img e (some chip) x, w) =
          (.ok (), (emulating args img e' (some chip) x, w')) ∧
      Replaced same path data (eq.files.view w) (eq.files.view w') := by
  obtain ⟨w₁, hread, hview₁⟩ := hlasts.chipWork img (restful_readChip chip) hrun
    (eq.files.note (.info fun _ => s!"Reading flash to {path}") w)
  have hwritten := hwrites data w₁
  rcases hwrite : eq.files.write path data w₁ with ⟨r, w₂⟩
  rw [hwrite] at hwritten
  cases hwritten
  have hsave : Image.save eq.files path data w₁ =
      (.ok (), eq.files.note (Image.savedNotice path data.size) w₂) := by
    rw [Image.save, hwrite]
  have hwork : Session.readWork (eq.workshop catalog) path chip (.dummy e img, w) =
      (.ok (), (.dummy e' img, _)) :=
    (Act.bind_ok rfl).trans ((Act.bind_ok hread).trans ((Act.bind_ok (aside_ok hsave _)).trans rfl))
  refine ⟨_, withChip_emulating hwork, ?_⟩
  have hreplaced := hlasts.write hwrite
  rw [hview₁, hlasts.note] at hreplaced
  change Replaced same path data _ (eq.files.view (eq.files.note _ (eq.files.note _ w₂)))
  rwa [hlasts.note, hlasts.note]

/-- Nothing is changed when the programmer is shut down. -/
def Unsaved (eq : Equipment ω) (img : Option String) : Prop :=
  ∀ (e : Emulator) (w : ω), eq.files.view (eq.close (.dummy e img) w).2 = eq.files.view w

theorem Lasts.shutdown_unsaved (hlasts : eq.Lasts same) (h : eq.Unsaved img) (catalog : List Chip)
    (args : String) (e : Emulator) (c : Option Chip) (x : Strategy) (w : ω) :
    eq.files.view (Session.shutdown (eq.workshop catalog) (emulating args img e c x, w)).2.2 =
      eq.files.view w := by
  have hclose : eq.files.view ((eq.workshop catalog).close (.dummy e img)
      ((eq.workshop catalog).note (Session.shutdownNotice DriverKind.dummy.name) w)).2 =
      eq.files.view w :=
    (h e _).trans (hlasts.note _ w)
  simp only [emulating, Session.shutdown]
  rcases hend : (eq.workshop catalog).close (.dummy e img)
    ((eq.workshop catalog).note (Session.shutdownNotice DriverKind.dummy.name) w) with ⟨_ | _, v⟩
  · rwa [hend] at hclose
  · rwa [hend] at hclose

end Equipment

namespace Queue

variable {ω : Type} {eq : Equipment ω} {same : String → String → Prop} {catalog : List Chip}
  {chip : Chip} {image name input output : String} {img : Option String} {x : Strategy} {w : ω}
  {data : Bytes} {stats : WriteStats} {e : Emulator}

/-- All operations of a run that writes one file to the chip and dumps it into another end well, and
so they do when it is cut in two, but then something else is dumped. -/
def Forgets (eq : Equipment ω) (catalog : List Chip) (chip : Chip) (image name : String)
    (x : Strategy) (input output : String) (w : ω) : Prop :=
  let shop := eq.workshop catalog
  let whole := onImage chip image name x [.write input, .read output]
  let first := onImage chip image name x [.write input]
  let second := onImage chip image name x [.read output]
  let v := (first.run shop ({}, w)).2.2
  (runAll shop whole.operations ({}, w)).1 = .ok () ∧
    (runAll shop first.operations ({}, w)).1 = .ok () ∧
    (runAll shop second.operations ({}, v)).1 = .ok () ∧
    eq.files.view (second.run shop ({}, v)).2.2 output ≠
      eq.files.view (whole.run shop ({}, w)).2.2 output

/-- What is dumped is left there when the programmer is shut down. -/
theorem dump_stays (hlasts : eq.Lasts same) (hunsaved : eq.Unsaved img)
    (hwrites : ∀ data w, (eq.files.write output data w).1 = .ok ()) (catalog : List Chip)
    (args : String) (x : Strategy) {d : Emulator}
    (hread : Emulator.programmer.readChip chip e = (.ok data, d)) (w : ω) :
    ∃ t, runAll (eq.workshop catalog) [.read output]
        (Equipment.emulating args img e (some chip) x, w) = (.ok (), t) ∧
      eq.files.view (Session.shutdown (eq.workshop catalog) t).2.2 output = .ok data := by
  obtain ⟨v, hdumped, hview⟩ := hlasts.read_emulating catalog args img x hwrites hread
    (begun (eq.workshop catalog) (.read output) (({} : Session Handle), w)).2
  refine ⟨_, runAll_cons_ok.mpr ⟨_, hdumped, rfl⟩, ?_⟩
  rw [hlasts.shutdown_unsaved hunsaved, hview.own output (hlasts.same_refl output)]

/-- A new chip is read in the second run, unless the memory has been saved. -/
theorem forgets (hlasts : eq.Lasts same) (hc : chip.Accepted)
    (hasks : Equipment.Asks catalog (Equipment.imageArgs chip image) chip img)
    (hloads : eq.Loads img chip w (Emulator.ofChip chip)) (hunsaved : eq.Unsaved img)
    (hselect : Emulator.programmer.selectChip catalog name (Emulator.ofChip chip) =
      (.ok chip, Emulator.ofChip chip))
    (hdata : eq.files.view w input = .ok data) (hsize : data.size ≤ chip.size)
    (hwrites : ∀ data w, (eq.files.write output data w).1 = .ok ())
    (hwrite : Emulator.programmer.write chip x 0 data (Emulator.ofChip chip) = (.ok stats, e))
    (hchanged : e.cells ≠ (Emulator.ofChip chip).cells) :
    Forgets eq catalog chip image name x input output w := by
  unfold Forgets
  intro shop whole first second v
  have hrest := Emulator.atRest_ofChip chip
  have hrest' := hrest.of_restful (restful_write chip x data) hwrite
  obtain ⟨d, hread⟩ := hrest.readChip hc
  obtain ⟨d', hread'⟩ := hrest'.readChip hc
  have hbegun (op : Operation) (s : Session Handle) (u : ω) :
      eq.files.view (begun shop op (s, u)).2 = eq.files.view u := hlasts.note _ u
  have hqueue (ops : List Operation) {s t u : Session Handle × ω}
      (hselected : runAll shop (new (Equipment.imageArgs chip image) name x).operations s =
        (.ok (), t)) (hops : runAll shop ops t = (.ok (), u)) :
      runAll shop (onImage chip image name x ops).operations s = (.ok (), u) := by
    rw [operations_onImage]
    exact runAll_append_ok.mpr ⟨t, hselected, hops⟩
  -- The whole run, and its first part.
  obtain ⟨w₀, hselected, hview₀⟩ := selections_of_loads (x := x) (s := {}) hlasts hasks hloads rfl
    hselect
  obtain ⟨w₁, hwritten, hview₁⟩ := hlasts.write_emulating catalog
    (Equipment.imageArgs chip image) img (by rw [hbegun (.write input) {}, hview₀]; exact hdata)
    hsize hwrite
  obtain ⟨_, hdumped, hleft⟩ := dump_stays hlasts hunsaved hwrites catalog
    (Equipment.imageArgs chip image) x hread' w₁
  have hfirst := hqueue [.write input] hselected
    (runAll_cons_ok.mpr ⟨_, hwritten, rfl⟩)
  have hwhole := hqueue [.write input, .read output] hselected
    (runAll_cons_ok.mpr ⟨_, hwritten, hdumped⟩)
  -- Nothing is left of the first part.
  have hv : eq.files.view v = eq.files.view w := by
    change eq.files.view (first.run shop ({}, w)).2.2 = _
    rw [run_of_ok hfirst, hlasts.shutdown_unsaved hunsaved, hview₁, hbegun, hview₀]
  obtain ⟨v₀, hselected', hview₀'⟩ := selections_of_loads (x := x) (s := {}) hlasts hasks
    (hloads.of_view hv) rfl hselect
  obtain ⟨_, hdumped', hleft'⟩ := dump_stays hlasts hunsaved hwrites catalog
    (Equipment.imageArgs chip image) x hread v₀
  have hsecond := hqueue [.read output] hselected' hdumped'
  refine ⟨by rw [hwhole], by rw [hfirst], by rw [hsecond], ?_⟩
  rw [run_of_ok hwhole, run_of_ok hsecond, hleft, hleft']
  exact fun hsame => hchanged (Except.ok.inj hsame).symm

/-- What is written to a chip of the catalog before the cut is lost, where the image cannot be saved
and where it has no name. -/
theorem at25fs010_forgets :
    Chip.at25fs010 ∈ Chip.catalog ∧ (Equipment.shelf ["missing/p"]).Lasts Eq ∧
      ∀ image ∈ ["missing/p", ""], Forgets (Equipment.shelf ["missing/p"]) Chip.catalog
        Chip.at25fs010 image "at25fs010" .default "in" "out" [("in", Bytes.filled 1 0)] := by
  have hlasts := Equipment.shelf_lasts ["missing/p"]
  have hmem : Chip.at25fs010 ∈ Chip.catalog := by simp [Chip.catalog]
  have hlisted := Chip.catalog_listed _ hmem
  have hc : Chip.at25fs010.Accepted := Chip.toChips_vendorDefinition.mp (by cbv)
  obtain ⟨plan, hplan⟩ :
      ∃ plan, Plan.make Chip.at25fs010.regions 0 (Bytes.filled 1 0).size false = .ok plan :=
    ⟨_, by rw [Bytes.size_filled]; cbv⟩
  obtain ⟨stats, e, hwrite, hbytes⟩ := (Emulator.atRest_ofChip Chip.at25fs010).write hc
    ⟨by decide, by decide⟩ (by decide) hplan
  have hchanged : e.cells ≠ (Emulator.ofChip Chip.at25fs010).cells := by
    intro hsame
    have hzero := hbytes 0 (by decide)
    rw [hsame, Emulator.byteAt_ofChip hc.size_pos] at hzero
    exact absurd hzero (by decide)
  have hselect : Emulator.programmer.selectChip Chip.catalog "at25fs010"
      (Emulator.ofChip Chip.at25fs010) = (.ok Chip.at25fs010, Emulator.ofChip Chip.at25fs010) := rfl
  have hdata : (Equipment.shelf ["missing/p"]).files.view [("in", Bytes.filled 1 0)] "in" =
      .ok (Bytes.filled 1 0) := rfl
  have hwrites : ∀ data w, ((Equipment.shelf ["missing/p"]).files.write "out" data w).1 = .ok () :=
    fun _ _ => rfl
  refine ⟨hmem, hlasts, ?_⟩
  rintro _ (_ | ⟨_, _ | ⟨_, ⟨⟩⟩⟩)
  · have hmissing : (Equipment.shelf ["missing/p"]).files.view [("in", Bytes.filled 1 0)]
        "missing/p" = .error .notFound := rfl
    exact forgets hlasts hc
      (Equipment.asks_imageArgs hlisted ⟨by decide, by decide⟩) (hlasts.loads_of_missing hmissing)
      (fun _ _ => rfl) hselect hdata (by decide) hwrites hwrite hchanged
  · have hasks : Equipment.Asks Chip.catalog (Equipment.imageArgs Chip.at25fs010 "")
        Chip.at25fs010 none :=
      Equipment.asks_of_values (by decide +kernel) (by decide +kernel) hlisted.found
        (by decide +kernel) (by decide +kernel) (by decide +kernel)
    exact forgets hlasts hc hasks (fun v hv => ⟨v, rfl, hv⟩) (fun _ _ => rfl) hselect
      hdata (by decide) hwrites hwrite hchanged

end Queue
end NorFlash
