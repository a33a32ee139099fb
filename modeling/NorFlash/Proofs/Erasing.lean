import NorFlash.Proofs.Rule
import NorFlash.Proofs.Wear

namespace NorFlash

/-- Erases that lie end to end from one address to another. -/
inductive EndToEnd : Nat → List Entry → Nat → Prop where
  | done (addr : Nat) : EndToEnd addr [] addr
  | next {opcode : UInt8} {addr len stop : Nat} {entries : List Entry} (hlen : 0 < len)
      (rest : EndToEnd (addr + len) entries stop) :
      EndToEnd addr (.erase opcode addr len :: entries) stop

/-- From `e` to `e'` every address of `[start, stop)` was erased, and none outside. -/
structure Emulator.Clears (e e' : Emulator) (start stop : Nat) : Prop where
  size : e'.cells.size = e.cells.size
  content : ∀ i, e'.cells.byteAt i =
    if start ≤ i ∧ i < stop then erased else e.cells.byteAt i
  journal : ∃ entries, e'.journal.toList = e.journal.toList ++ entries ∧
    EndToEnd start entries stop

/-- Why the chip has no erase for a range. -/
inductive Chip.Refuses (c : Chip) (start len : Nat) (exact : Bool) : Error → Prop where
  | outside (h : c.size < start + len) : Refuses c start len exact .addressOutOfBounds
  | empty (hin : start + len ≤ c.size) (h : len = 0) : Refuses c start len exact .invalidArgument
  | uncovered {addr : Nat} (hin : start + len ≤ c.size)
      (h : Plan.Ruled c.regions start (start + len) (.error (.noCoverage addr))) :
      Refuses c start len exact (.noCoverage addr)
  | inexact {p : Plan} (hin : start + len ≤ c.size) (hexact : exact = true)
      (h : Plan.Ruled c.regions start (start + len) (.ok p))
      (hends : ¬(p.start = start ∧ p.stop = start + len)) :
      Refuses c start len exact (.notExact p.start p.stop)

variable {c : Chip} {regions : List Region} {plan : Plan} {start stop len : Nat} {exact : Bool}
  {bs : List Block} {e e' : Emulator} {error : Error}

/-- Blocks that lie end to end are erased end to end. -/
theorem Plan.endToEnd_of_chained (hw : ∀ b ∈ bs, b.Within regions)
    (hc : bs.IsChain fun a b => a.stop = b.start) {first last : Block}
    (hfirst : bs.head? = some first) (hlast : bs.getLast? = some last) :
    EndToEnd first.start (bs.map Entry.ofBlock) last.stop := by
  induction bs generalizing first with
  | nil => cases hfirst
  | cons b bs ih =>
    cases hfirst
    have hpos := (hw b List.mem_cons_self).size_pos
    cases bs with
    | nil =>
      cases hlast
      exact .next hpos (.done _)
    | cons b' bs =>
      obtain ⟨hnext, hrest⟩ := List.isChain_cons_cons.mp hc
      apply EndToEnd.next hpos
      change EndToEnd b.stop _ _
      rw [hnext]
      apply ih (fun x hx => hw x (List.mem_cons_of_mem b hx)) hrest rfl
      simpa using hlast

theorem Plan.Covers.endToEnd (h : plan.Covers regions start stop) :
    EndToEnd plan.start (plan.blocks.map Entry.ofBlock) plan.stop := by
  obtain ⟨first, hfirst, hstart⟩ := h.start_eq
  obtain ⟨last, hlast, hstop⟩ := h.stop_eq
  rw [hstart, hstop]
  exact endToEnd_of_chained h.within h.chained hfirst hlast

theorem Plan.Covers.clears (h : plan.Covers regions start stop)
    (ha : e.After (plan.blocks.map .ofBlock) e') : e.Clears e' plan.start plan.stop := by
  refine ⟨ha.size, fun i => ?_, plan.blocks.map Entry.ofBlock, ?_, h.endToEnd⟩
  · rw [ha.content]
    split
    case isTrue hin =>
      obtain ⟨b, hb, hin⟩ := (h.mem_iff i).mp hin
      exact CellOperation.effects_erases hb hin
    case isFalse hout =>
      apply CellOperation.effects_of_not_reaches
      intro op hop
      obtain ⟨b, hb, rfl⟩ := List.mem_map.mp hop
      intro hin
      exact hout ((h.mem_iff i).mpr ⟨b, hb, hin⟩)
  · rw [ha.journal, List.map_map]
    rfl

/-- A range inside the chip that cannot be planned is one that the chip refuses. -/
theorem Chip.Accepted.refuses (hc : c.Accepted) (hin : start + len ≤ c.size)
    (h : Plan.make c.regions start len exact = .error error) :
    c.Refuses start len exact error := by
  have ha : start + len ≤ addressSpace := Nat.le_of_lt (Nat.lt_of_le_of_lt hin hc.size_lt)
  rcases Nat.eq_zero_or_pos len with hlen | hlen
  · rw [Plan.make, if_pos (by simpa using hlen)] at h
    cases h
    exact .empty hin hlen
  have hruled : Plan.Ruled c.regions start (start + len) _ := Plan.make_ruled hlen ha
  cases hplan : Plan.make c.regions start len false with
  | error e =>
    rw [hplan] at hruled
    have he : e = error := by
      cases exact with
      | false => simpa [hplan] using h
      | true => simpa [Plan.make_exact_eq hlen, hplan] using h
    subst he
    cases hruled with
    | refused hphased none => exact .uncovered hin (.refused hphased none)
  | ok p =>
    rw [hplan] at hruled
    cases exact with
    | false =>
      rw [hplan] at h
      cases h
    | true =>
      rw [Plan.make_exact_eq hlen, hplan] at h
      dsimp only at h
      split at h
      case isTrue => cases h
      case isFalse hends =>
        -- the end of the plan is an address of the chip, or the end of its last one
        have hstop := (Plan.make_covers hplan).stop_le_size hc
        have hsize := hc.size_lt
        rw [Nat.min_eq_left (by omega)] at h
        cases h
        exact .inexact hin rfl hruled hends

section Carried

variable {σ : Type} {p : Programmer σ} {view : σ → Emulator} {faultless : Prop} {s : σ}

/-- An erase that is planned erases the blocks of its plan and returns the plan's extent. -/
theorem Programmer.Carries.erase (hp : p.Carries view faultless) (hc : c.Accepted)
    (hr : c.Regular) (he : (view s).Emulates c) (hin : start + len ≤ c.size)
    (hplan : Plan.make c.regions start len exact = .ok plan) :
    Performs view faultless (p.erase c start len exact) s (plan.blocks.map .ofBlock)
      (fun a _ => a = (plan.start, plan.erasedBytes)) := by
  have hcovers := Plan.make_covers hplan
  have hinside := hcovers.inside hc
  have hsize := hc.size_lt
  refine .bind_value (.checkRange hin) fun s₁ hv₁ => ?_
  refine .bind_value (hp.plan_ok hplan) fun s₂ hv₂ => ?_
  rw [← hv₁, ← hv₂] at he
  have hfits : ∀ b ∈ plan.blocks, b.Fits c := fun b hb => (hcovers.within b hb).fits_chip hc hr
  refine .bind_last (hp.quiet.executePlan he hfits hinside) fun _ s₃ _ _ => ?_
  refine .bind_value (.word (by omega)) fun s₄ _ => ?_
  exact .pure rfl

end Carried

namespace Emulator

theorem erase_outside (h : c.size < start + len) (exact : Bool) :
    programmer.erase c start len exact e = (.error (.error .addressOutOfBounds), e) := by
  apply Act.bind_error
  exact if_neg (by simpa [Chip.holds] using h)

theorem tellAll_apply (ns : List Notice) (e : Emulator) :
    programmer.tellAll ns e = (.ok (), e) := by
  have hsame : ns.foldl (fun s n => programmer.note n s) e = e := by
    induction ns with
    | nil => rfl
    | cons n ns ih => exact ih
  rw [Programmer.tellAll, Act.modify_apply, hsame]

theorem erase_unplanned (hin : start + len ≤ c.size)
    (h : Plan.make c.regions start len exact = .error error) :
    programmer.erase c start len exact e = (.error (.error error), e) := by
  have hcheck : programmer.checkRange c start len e = (.ok (), e) :=
    if_pos (by simpa [Chip.holds] using hin)
  apply (Act.bind_ok hcheck).trans
  apply Act.bind_error
  apply (Act.bind_ok (tellAll_apply _ e)).trans
  rw [h]
  rfl

/-- An erase clears what it reports, which contains its range and is the range itself if asked for
exactly; or it is refused and changes nothing. -/
theorem erase_clears_or_refuses (hc : c.Accepted) (hr : c.Regular) (he : e.Emulates c)
    (start len : Nat) (exact : Bool) :
    (∃ s l e', programmer.erase c start len exact e = (.ok (s, l), e') ∧ s ≤ start ∧
        start + len ≤ s + l ∧ (exact = true → s = start ∧ l = len) ∧ e.Clears e' s (s + l)) ∨
      ∃ error, programmer.erase c start len exact e = (.error (.error error), e) ∧
        c.Refuses start len exact error := by
  by_cases hin : start + len ≤ c.size
  case neg =>
    have hout : c.size < start + len := Nat.lt_of_not_le hin
    exact .inr ⟨_, erase_outside hout exact, .outside hout⟩
  case pos =>
    cases hplan : Plan.make c.regions start len exact with
    | error error => exact .inr ⟨error, erase_unplanned hin hplan, hc.refuses hin hplan⟩
    | ok plan =>
      have hcovers := Plan.make_covers hplan
      have hlt := hcovers.start_lt_stop
      have hlo := hcovers.start_le
      have hhi := hcovers.le_stop
      have hstop : plan.start + plan.erasedBytes = plan.stop := by
        unfold Plan.erasedBytes
        omega
      have hp := programmer_carries True
      have hrun : Performs id True (programmer.erase c start len exact) e _ _ :=
        hp.erase hc hr he hin hplan
      obtain ⟨_, e', hx, ha, rfl⟩ := hrun.exists_ok trivial
      refine .inl ⟨_, _, e', hx, hlo, ?_, fun hexact => ?_, ?_⟩
      · rw [hstop]
        exact hhi
      · obtain ⟨hstart, hend⟩ := (Plan.make_ok hplan).2.2 hexact
        exact ⟨hstart, by omega⟩
      · rw [hstop]
        exact hcovers.clears ha

/-- Blocks of two sizes for a range out of step with both. -/
theorem erase_clears_or_refuses_sample :
    (∃ s l e', programmer.erase Chip.sample 6 13 false sample = (.ok (s, l), e') ∧ s ≤ 6 ∧
        6 + 13 ≤ s + l ∧ (false = true → s = 6 ∧ l = 13) ∧ sample.Clears e' s (s + l)) ∨
      ∃ error, programmer.erase Chip.sample 6 13 false sample = (.error (.error error), sample) ∧
        Chip.sample.Refuses 6 13 false error :=
  erase_clears_or_refuses Chip.sample_accepted Chip.sample_regular sample_emulates 6 13 false

end Emulator
end NorFlash
