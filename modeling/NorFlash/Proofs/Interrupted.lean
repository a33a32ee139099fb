import NorFlash.Proofs.Writing

namespace NorFlash

/-- Something on the way to a chip that may answer a command with an error instead of passing it
on. It sees the command and the chip, and remembers what it likes. -/
structure Adversary (τ : Type) where
  verdict : Command → Emulator → τ → Option Error × τ

/-- The emulated chip behind the adversary. -/
def Adversary.programmer {τ : Type} (a : Adversary τ) : Programmer (Emulator × τ) where
  maxRead s := s.1.maxRead
  maxWrite s := s.1.maxWrite
  execute c s :=
    match a.verdict c s.1 s.2 with
    | (some e, t) => (.error (.error e), (s.1, t))
    | (none, t) => ((s.1.execute c).1, ((s.1.execute c).2, t))
  delay _ s := s
  report _ s := s
  note _ s := s

variable {σ τ : Type} {p : Programmer σ} {view : σ → Emulator} {s : σ} {c : Chip} {start : Nat}
  {data : Bytes} {plan : Plan} {strategy : Strategy} {e : Emulator}

theorem Adversary.carries (a : Adversary τ) : a.programmer.Carries Prod.fst False := by
  refine ⟨fun c s => ?_, fun _ _ => rfl, fun _ _ => rfl, fun _ _ => rfl, fun _ => rfl,
    fun _ => rfl, rfl⟩
  obtain ⟨e, t⟩ := s
  cases hv : a.verdict c e t with
  | mk answer t' =>
    simp only [programmer, hv]
    cases answer with
    | none => exact .inl ⟨rfl, rfl⟩
    | some err => exact .inr ⟨id, ⟨_, rfl⟩, rfl⟩

/-- What a planned write may have left of a byte when it stops: nothing has happened to it, or it
lies in the plan and is erased or finished. -/
theorem Programmer.Carries.write_leaves (hp : p.Carries view False)
    (h : Writable c (view s) start data plan)
    (hplan : Plan.make c.regions start data.size false = .ok plan) (i : Nat) :
    (view (p.write c strategy start data s).2).cells.byteAt i = (view s).cells.byteAt i ∨
      (plan.start ≤ i ∧ i < plan.stop) ∧
        ((view (p.write c strategy start data s).2).cells.byteAt i = Emulator.erased ∨
          ∃ stats full, Emulator.programmer.write c strategy start data (view s) =
            (.ok stats, full) ∧
              (view (p.write c strategy start data s).2).cells.byteAt i = full.cells.byteAt i) := by
  have hrun : Performs view False (p.write c strategy start data) s _ (fun _ _ => True) :=
    hp.write h hplan (fun hf => hf.elim) (fun hf => hf.elim)
  obtain ⟨done, hdone, ha⟩ := hrun.exists_prefix
  rw [ha.content]
  rcases CellOperation.effects_of_prefix (fun _ hop => Strategy.wipes_wipe hop)
    (fun _ hop => h.writes_write hop) hdone with hold | ⟨hin, herased⟩ | ⟨hin, hfinal⟩
  · exact .inl hold
  · exact .inr ⟨(h.covers.mem_iff i).mpr hin, .inl herased⟩
  · obtain ⟨op, hop, hreach⟩ := hin
    refine .inr ⟨h.writes_inside hop hreach, .inr ?_⟩
    -- what is programmed at all could have been programmed to the end
    obtain ⟨hw, hr⟩ := Strategy.limits_of_mem_writes hop
    have hfull : Performs id True (Emulator.programmer.write c strategy start data) (view s) _
        (fun _ _ => True) :=
      (Emulator.programmer_carries True).write h hplan (fun _ => hr) (fun _ => hw)
    obtain ⟨stats, full, hx, hafter, _⟩ := hfull.exists_ok trivial
    refine ⟨stats, full, hx, hfinal.trans ?_⟩
    exact (congrFun hafter.content i).symm

/-- However a write is interrupted, each byte holds what it held, or it lies in the plan and is
erased or holds what the whole write would have left. Without a plan nothing has changed. -/
theorem Adversary.write_spares (a : Adversary τ) (t : τ) (hc : c.Accepted) (hr : c.Regular)
    (he : e.Emulates c) (hin : start + data.size ≤ c.size) :
    let left := (a.programmer.write c strategy start data (e, t)).2.1
    left.cells.size = e.cells.size ∧
      (∀ err, Plan.make c.regions start data.size false = .error err → left.cells = e.cells) ∧
      ∀ plan, Plan.make c.regions start data.size false = .ok plan → ∀ i,
        left.cells.byteAt i = e.cells.byteAt i ∨
          (plan.start ≤ i ∧ i < plan.stop) ∧
            (left.cells.byteAt i = Emulator.erased ∨
              ∃ stats full,
                Emulator.programmer.write c strategy start data e = (.ok stats, full) ∧
                  left.cells.byteAt i = full.cells.byteAt i) := by
  intro left
  cases hplan : Plan.make c.regions start data.size false with
  | error err =>
    have hrun : Performs Prod.fst False (a.programmer.write c strategy start data) (e, t) []
        (fun _ _ => True) :=
      a.carries.write_unplanned hin hc.size_lt hplan id
    obtain ⟨done, hdone, ha⟩ := hrun.exists_prefix
    rw [List.prefix_nil.mp hdone] at ha
    exact ⟨hrun.size_eq, fun _ _ => ha.cells_eq, nofun⟩
  | ok plan =>
    have h : Writable c (Prod.fst (e, t)) start data plan := he.writable hc hr hin hplan
    have hrun : Performs Prod.fst False (a.programmer.write c strategy start data) (e, t) _
        (fun _ _ => True) :=
      a.carries.write h hplan (fun hf => hf.elim) (fun hf => hf.elim)
    refine ⟨hrun.size_eq, nofun, fun plan' hplan' i => ?_⟩
    cases hplan'
    exact a.carries.write_leaves h hplan i

/-- Lets so many commands pass, and then none. -/
def Adversary.cut (n : Nat) : Adversary Nat where
  verdict _ _ k := (if k < n then none else some .transferFailed, k + 1)

theorem Adversary.write_spares_cut :
    let left := ((Adversary.cut 20).programmer.write Chip.sample .wipeIfChanges 6
      (Bytes.filled 13 0x0F) (Emulator.sample, 0)).2.1
    ∀ i, left.cells.byteAt i = Emulator.sample.cells.byteAt i ∨
      (4 ≤ i ∧ i < 20) ∧
        (left.cells.byteAt i = Emulator.erased ∨
          ∃ stats full,
            Emulator.programmer.write Chip.sample .wipeIfChanges 6 (Bytes.filled 13 0x0F)
              Emulator.sample = (.ok stats, full) ∧
                left.cells.byteAt i = full.cells.byteAt i) := by
  have hin : 6 + (Bytes.filled 13 0x0F).size ≤ Chip.sample.size := by decide
  exact (Adversary.write_spares (Adversary.cut 20) 0 Chip.sample_accepted Chip.sample_regular
    Emulator.sample_emulates hin).2.2 _ Chip.sample_plan

end NorFlash
