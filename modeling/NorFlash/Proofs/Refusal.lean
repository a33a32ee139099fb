import NorFlash.Proofs.Writing

namespace NorFlash

/-- The error says that the request cannot be carried out, not that something went wrong on the
way. -/
def Error.Refuses : Error → Prop
  | .invalidArgument | .noCoverage _ | .notExact _ _ | .addressOutOfBounds
  | .transferSizeUnspecified | .erase (.partialChip _ _) => True
  | _ => False

namespace Emulator

variable {e e' : Emulator} {ops : List CellOperation} {b : Block}

/-- The cells are what they were, and all that was done since is reading. -/
structure Untouched (e e' : Emulator) : Prop where
  cells : e'.cells = e.cells
  reads : ∃ entries, e'.journal.toList = e.journal.toList ++ entries ∧
    ∀ x ∈ entries, ∃ addr len, x = Entry.read addr len

theorem After.untouched (h : e.After ops e') (hops : ∀ op ∈ ops, ∃ addr len, op = .read addr len) :
    e.Untouched e' := by
  refine ⟨Bytes.ext_byteAt h.size fun i _ => ?_, ops.map CellOperation.entry, h.journal, ?_⟩
  · rw [h.content, CellOperation.effects_reads hops]
  · intro x hx
    obtain ⟨op, hop, rfl⟩ := List.mem_map.mp hx
    obtain ⟨addr, len, rfl⟩ := hops op hop
    exact ⟨addr, len, rfl⟩

theorem After.not_untouched (h : e.After ops e') (hb : CellOperation.ofBlock b ∈ ops) :
    ¬e.Untouched e' := by
  rintro ⟨_, entries, hentries, hread⟩
  rw [h.journal] at hentries
  have hmem := List.mem_map_of_mem (f := CellOperation.entry) hb
  rw [List.append_cancel_left hentries] at hmem
  obtain ⟨addr, len, hentry⟩ := hread _ hmem
  cases hentry

end Emulator

/-- The blocks that a write erases. -/
def Strategy.erases (e : Emulator) (start : Nat) (data : Bytes) (p : Plan) : Strategy → List Block
  | wipeByBiggestErases => p.blocks
  | wipeIfChanges => p.changed e start data

namespace Strategy

variable {e : Emulator} {start : Nat} {data : Bytes} {plan : Plan} {strategy : Strategy} {b : Block}
  {op : CellOperation}

theorem ofBlock_mem_wipes (hb : b ∈ strategy.erases e start data plan) :
    CellOperation.ofBlock b ∈ strategy.wipes e start data plan := by
  cases strategy with
  | wipeByBiggestErases => exact List.mem_map_of_mem hb
  | wipeIfChanges => exact List.mem_append_right _ (List.mem_map_of_mem hb)

theorem wipes_read (hnone : strategy.erases e start data plan = [])
    (hop : op ∈ strategy.wipes e start data plan) : ∃ addr len, op = .read addr len := by
  cases strategy with
  | wipeByBiggestErases =>
    obtain ⟨b, hb, _⟩ := List.mem_map.mp hop
    rw [erases] at hnone
    simp [hnone] at hb
  | wipeIfChanges =>
    rw [erases] at hnone
    rw [wipes, hnone, List.map_nil, List.append_nil] at hop
    exact CellOperation.mem_reads hop

end Strategy

variable {σ α β : Type} {p : Programmer σ} {view : σ → Emulator} {s : σ} {c : Chip} {start : Nat}
  {data : Bytes} {plan : Plan} {strategy : Strategy} {ops ops' : List CellOperation} {err : Error}

/-- The step performs `ops` on the chip and fails then. -/
def FailsAfter (view : σ → Emulator) (x : Act σ Stop α) (s : σ) (ops : List CellOperation)
    (err : Error) : Prop :=
  ∃ s', x s = (.error (.error err), s') ∧ (view s).After ops (view s')

section FailsAfter

variable {x : Act σ Stop α} {f : α → Act σ Stop β} {r : α → Emulator → Prop} {a : α}

theorem FailsAfter.bind (hx : FailsAfter view x s ops err) :
    FailsAfter view (x >>= f) s ops err := by
  obtain ⟨s', hxs, ha⟩ := hx
  exact ⟨s', Act.bind_error hxs, ha⟩

/-- A failure after a step that ends well. -/
theorem Performs.bind_fails (hx : Performs view True x s ops r)
    (hf : ∀ a s', (view s).After ops (view s') → r a (view s') →
      FailsAfter view (f a) s' ops' err) :
    FailsAfter view (x >>= f) s (ops ++ ops') err := by
  obtain ⟨a, s', hxs, ha, hr⟩ := hx.exists_ok trivial
  obtain ⟨s'', hfs, ha'⟩ := hf a s' ha hr
  exact ⟨s'', (Act.bind_ok hxs).trans hfs, ha.trans ha'⟩

/-- A failure that comes right after the operations of a step. -/
theorem Performs.bind_fails_at_once (hx : Performs view True x s ops r)
    (hf : ∀ a s', (view s).After ops (view s') → r a (view s') →
      FailsAfter view (f a) s' [] err) :
    FailsAfter view (x >>= f) s ops err := by
  have h := hx.bind_fails hf
  rwa [List.append_nil] at h

theorem Gives.bind_fails (hx : Gives view True x s a)
    (hf : ∀ s', view s' = view s → FailsAfter view (f a) s' ops err) :
    FailsAfter view (x >>= f) s ops err := by
  refine Performs.bind_fails hx fun b s' _ h => ?_
  obtain ⟨rfl, hv⟩ := h
  exact hf s' hv

theorem FailsAfter.onError (hp : p.Carries view True) {g : Error → Notice}
    (hx : FailsAfter view x s ops err) : FailsAfter view (p.onError x g) s ops err := by
  obtain ⟨s', hxs, ha⟩ := hx
  refine ⟨p.note (g err) s', ?_, ?_⟩
  · simp only [Programmer.onError, Act.onError, hxs]
  · rw [hp.note]
    exact ha

end FailsAfter

namespace Programmer.Carries

variable (hp : p.Carries view True) (hm : (view s).maxWrite = 0)
include hp hm

/-- Nothing is programmed by a programmer that can carry no data. -/
theorem writeChunked_fails {addr : Nat} (hin : addr + data.size ≤ c.size) :
    FailsAfter view (p.writeChunked c addr data) s [] .transferSizeUnspecified := by
  refine Gives.bind_fails (.checkRange hin) fun s₁ hv₁ => ?_
  refine Gives.bind_fails .read fun s₂ hv₂ => ?_
  rw [hp.maxWrite, hv₁, hm]
  exact .onError hp ⟨s₂, rfl, .refl _⟩

theorem wipeByBiggestErases_fails (h : Writable c (view s) start data plan)
    (hplan : Plan.make c.regions start data.size false = .ok plan) :
    FailsAfter view (p.wipeByBiggestErases c start data) s
      (Strategy.wipeByBiggestErases.wipes (view s) start data plan) .transferSizeUnspecified := by
  have hlt := h.accepted.size_lt
  have hin := h.inside
  refine Gives.bind_fails (.word (by omega)) fun s₁ hv₁ => ?_
  refine Gives.bind_fails (hp.plan_ok hplan) fun s₂ hv₂ => ?_
  rw [← hv₁, ← hv₂] at h hm ⊢
  refine Performs.bind_fails_at_once
    (hp.executePlan h.emulates (fun _ => h.fits) h.plan_inside) fun _ s₃ h₃ _ => ?_
  refine Gives.bind_fails (hp.progress _) fun s₄ hv₄ => ?_
  exact .bind (writeChunked_fails hp (by rw [hv₄, h₃.maxWrite, hm]) hin)

theorem reprogram_fails {e : Emulator} {image : Bytes} {b : Block} {done : List Block}
    (h : Writable c e start data plan) (hb : b ∈ plan.blocks)
    (hmerged : Merged e.cells (e.cells.overlay start data) done image) (hdone : b ∈ done)
    (written : Nat) :
    FailsAfter view (p.reprogram c image written b) s [] .transferSizeUnspecified := by
  have hlt := (h.covers.within b hb).start_lt_stop
  have hstop := (h.fits hb).inside
  have hgoal := h.size_goal
  have hsize := hmerged.size.trans hgoal
  unfold Programmer.reprogram
  rw [Bytes.slice?_of_le (Nat.le_of_lt hlt) (by omega), hmerged.extract_eq hdone (by omega)]
  refine Gives.bind_fails .require fun s₁ hv₁ => ?_
  refine .bind (writeChunked_fails hp.quiet (by rw [hv₁, hm]) ?_)
  rw [h.part_stop hb]
  exact hstop

theorem wipeIfChanges_fails (h : Writable c (view s) start data plan)
    (hplan : Plan.make c.regions start data.size false = .ok plan)
    (hchanged : plan.changed (view s) start data ≠ []) :
    FailsAfter view (p.wipeIfChanges c start data) s
      (Strategy.wipeIfChanges.wipes (view s) start data plan) .transferSizeUnspecified := by
  have hlt := h.accepted.size_lt
  have hin := h.inside
  refine Gives.bind_fails (.word (by omega)) fun s₁ hv₁ => ?_
  refine Gives.bind_fails (hp.plan_ok hplan) fun s₂ hv₂ => ?_
  refine Gives.bind_fails (.checkRange h.plan_inside) fun s₃ hv₃ => ?_
  rw [← hv₁, ← hv₂, ← hv₃] at h hm hchanged ⊢
  obtain ⟨b, rest, hfirst⟩ := List.exists_cons_of_ne_nil hchanged
  have hb : b ∈ plan.changed (view s₃) start data := by simp [hfirst]
  have hread := (Plan.mem_changed hb).2.1
  obtain rfl := h.emulates.chip
  rw [Strategy.wipes]
  refine Performs.bind_fails
    (hp.readChip h.emulates.size h.accepted.page_pos h.addressable fun _ => hread) ?_
  intro image s₄ h₄ himage
  obtain ⟨_, rfl⟩ := himage
  rw [← List.nil_append (List.map _ _)]
  refine Performs.bind_fails (hp.blocksToUpdate h) ?_
  intro update s₅ h₅ hupdate
  rw [← Plan.changed_of_readable hread] at hupdate
  subst hupdate
  refine Gives.bind_fails (hp.progress _) fun s₆ hv₆ => ?_
  rw [← hv₆] at h₅
  have h₃₆ := h₄.trans h₅
  refine Performs.bind_fails_at_once (hp.refresh_fold (h.emulates.after h₃₆) h
    fun _ hb => (Plan.mem_changed hb).1) fun a s₇ h₇ ha => ?_
  obtain ⟨_, hmerged⟩ := ha
  refine Gives.bind_fails (hp.progress _) fun s₈ hv₈ => ?_
  have hmute : (view s₈).maxWrite = 0 := by rw [hv₈, h₇.maxWrite, h₃₆.maxWrite, hm]
  -- it ends with the first block that is to be programmed again
  refine .bind ?_
  conv in Act.fold _ _ _ => rw [hfirst]
  exact .bind (reprogram_fails hp hmute h (Plan.mem_changed hb).1 hmerged hb 0)

theorem write_fails (h : Writable c (view s) start data plan)
    (hplan : Plan.make c.regions start data.size false = .ok plan)
    (herases : strategy.erases (view s) start data plan ≠ []) :
    FailsAfter view (p.write c strategy start data) s
      (strategy.wipes (view s) start data plan) .transferSizeUnspecified := by
  refine Gives.bind_fails (.checkRange h.inside) fun s₁ hv₁ => ?_
  rw [if_neg (Plan.len_ne_zero hplan)]
  refine Gives.bind_fails (hp.tell _) fun s₂ hv₂ => ?_
  rw [← hv₁, ← hv₂] at h hm herases ⊢
  refine .bind ?_
  cases strategy with
  | wipeByBiggestErases => exact wipeByBiggestErases_fails hp hm h hplan
  | wipeIfChanges => exact wipeIfChanges_fails hp hm h hplan herases

end Programmer.Carries

namespace Emulator

variable {e : Emulator}

/-- A write that touches the chip before it is refused: there is a plan with something to erase,
and the programmer cannot send a byte. -/
def Hasty (c : Chip) (strategy : Strategy) (start : Nat) (data : Bytes) (e : Emulator) : Prop :=
  e.maxWrite = 0 ∧ start + data.size ≤ c.size ∧
    ∃ plan, Plan.make c.regions start data.size false = .ok plan ∧
      strategy.erases e start data plan ≠ []

/-- Where the limits do not let a planned write go on to its end, and it is not hasty, it erases
nothing. -/
theorem erases_eq_nil {plan : Plan} (hin : start + data.size ≤ c.size)
    (hplan : Plan.make c.regions start data.size false = .ok plan)
    (hhasty : ¬Hasty c strategy start data e)
    (hlimits : ¬(0 < e.maxWrite ∧ (strategy = .wipeIfChanges → 0 < e.maxRead))) :
    strategy.erases e start data plan = [] := by
  by_contra hne
  have hwrite : 0 < e.maxWrite := by
    by_contra hmute
    exact hhasty ⟨by omega, hin, plan, hplan, hne⟩
  refine hlimits ⟨hwrite, ?_⟩
  rintro rfl
  obtain ⟨b, rest, hfirst⟩ := List.exists_cons_of_ne_nil hne
  have hb : b ∈ plan.changed e start data := by
    rw [Strategy.erases] at hfirst
    simp [hfirst]
  exact (Plan.mem_changed hb).2.1

/-- If a write that is not hasty ends badly, whatever the reason, then the chip is untouched. -/
theorem untouched_of_not_hasty (hc : c.Accepted) (hr : c.Regular) (he : e.Emulates c)
    (hhasty : ¬Hasty c strategy start data e) {err : Stop} {e' : Emulator}
    (hx : programmer.write c strategy start data e = (.error err, e')) : e.Untouched e' := by
  by_cases hin : start + data.size ≤ c.size
  · cases hplan : Plan.make c.regions start data.size false with
    | error reason =>
      have hrun : Performs id False (programmer.write c strategy start data) e [] fun _ _ => True :=
        (programmer_carries False).write_unplanned hin hc.size_lt hplan id
      obtain ⟨done, hdone, ha⟩ := hrun.exists_prefix
      rw [List.prefix_nil.mp hdone, hx] at ha
      exact ha.untouched (by simp)
    | ok plan =>
      have h : Writable c e start data plan := he.writable hc hr hin hplan
      by_cases hlimits : 0 < e.maxWrite ∧ (strategy = .wipeIfChanges → 0 < e.maxRead)
      · have hrun : Performs id True (programmer.write c strategy start data) e _ fun _ _ => True :=
          (programmer_carries True).write h hplan (fun _ => hlimits.2) (fun _ => hlimits.1)
        obtain ⟨stats, full, hok, _⟩ := hrun.exists_ok trivial
        rw [hx] at hok
        cases hok
      · have hnone := erases_eq_nil hin hplan hhasty hlimits
        have hrun : Performs id False (programmer.write c strategy start data) e _
            fun _ _ => True :=
          (programmer_carries False).write h hplan (fun hf => hf.elim) (fun hf => hf.elim)
        obtain ⟨done, hdone, ha⟩ := hrun.exists_prefix
        rw [hx] at ha
        refine ha.untouched fun op hop => ?_
        rcases List.mem_append.mp (hdone.subset hop) with hop | hop
        · exact Strategy.wipes_read hnone hop
        · exact absurd (Strategy.limits_of_mem_writes hop) hlimits
  · have hout : programmer.write c strategy start data e =
        (.error (.error .addressOutOfBounds), e) :=
      Act.bind_error (if_neg (by simpa [Chip.holds] using hin))
    rw [hout] at hx
    cases hx
    exact (After.refl e).untouched (by simp)

/-- A write that is refused leaves the chip untouched, if and only if it is not a hasty one. -/
theorem refused_untouched_iff (hc : c.Accepted) (hr : c.Regular) (he : e.Emulates c) :
    (∀ err e', programmer.write c strategy start data e = (.error (.error err), e') →
      err.Refuses → e.Untouched e') ↔ ¬Hasty c strategy start data e := by
  constructor
  · rintro hall ⟨hmute, hin, plan, hplan, herases⟩
    have h : Writable c e start data plan := he.writable hc hr hin hplan
    have hfails : FailsAfter id (programmer.write c strategy start data) e _ _ :=
      (programmer_carries True).write_fails hmute h hplan herases
    obtain ⟨e', hx, ha⟩ := hfails
    obtain ⟨b, rest, hfirst⟩ := List.exists_cons_of_ne_nil herases
    have hb : b ∈ strategy.erases e start data plan := by
      have hmem : b ∈ b :: rest := List.mem_cons_self
      rwa [← hfirst] at hmem
    exact ha.not_untouched (Strategy.ofBlock_mem_wipes hb) (hall _ e' hx trivial)
  · intro hhasty err e' hx _
    exact untouched_of_not_hasty hc hr he hhasty hx

theorem refused_untouched_iff_sample :
    let blind : Emulator := { sample with maxRead := 0 }
    ∃ err e', programmer.write Chip.sample .wipeIfChanges 6 (Bytes.filled 13 0x0F) blind =
      (.error (.error err), e') ∧ err.Refuses ∧ blind.Untouched e' := by
  intro blind
  have hresult : (programmer.write Chip.sample .wipeIfChanges 6 (Bytes.filled 13 0x0F) blind).1 =
      .error (.error .transferSizeUnspecified) := by decide +kernel
  have he : blind.Emulates Chip.sample := ⟨rfl, Bytes.size_filled 32 0x5A, by decide, by decide⟩
  have hhasty : ¬Hasty Chip.sample .wipeIfChanges 6 (Bytes.filled 13 0x0F) blind := by
    rintro ⟨hmute, _⟩
    exact absurd hmute (by decide)
  refine ⟨_, _, Prod.ext hresult rfl, trivial, ?_⟩
  exact (refused_untouched_iff Chip.sample_accepted Chip.sample_regular he).mpr hhasty _ _
    (Prod.ext hresult rfl) trivial

/-- The small chip behind a programmer that never said how much it can send: three blocks are erased
and then the write is refused. -/
theorem write_refused_after_erasing :
    let mute : Emulator := { sample with maxWrite := 0 }
    ∃ e', programmer.write Chip.sample .wipeByBiggestErases 6 (Bytes.filled 13 0x0F) mute =
        (.error (.error .transferSizeUnspecified), e') ∧ Error.transferSizeUnspecified.Refuses ∧
      ¬mute.Untouched e' ∧ mute.cells.byteAt 5 = 0x5A ∧ e'.cells.byteAt 5 = erased := by
  intro mute
  have he : mute.Emulates Chip.sample := ⟨rfl, Bytes.size_filled 32 0x5A, by decide, by decide⟩
  have hin : 6 + (Bytes.filled 13 0x0F).size ≤ Chip.sample.size := by decide
  have h := he.writable Chip.sample_accepted Chip.sample_regular hin Chip.sample_plan
  have hfails : FailsAfter id (programmer.write Chip.sample .wipeByBiggestErases 6
      (Bytes.filled 13 0x0F)) mute _ _ :=
    (programmer_carries True).write_fails rfl h Chip.sample_plan (by simp [Strategy.erases])
  obtain ⟨e', hx, ha⟩ := hfails
  refine ⟨e', hx, trivial, ?_, by decide, ?_⟩
  · exact ha.not_untouched (Strategy.ofBlock_mem_wipes List.mem_cons_self)
  · have hbyte := congrFun ha.content 5
    rw [Strategy.wipes] at hbyte
    exact hbyte.trans (CellOperation.effects_erases List.mem_cons_self (by decide))

end Emulator
end NorFlash
