import NorFlash.Proofs.Lifetimes
import NorFlash.Proofs.Storage
import NorFlash.Proofs.Writing

namespace NorFlash

variable {ω μ : Type} {shop : Workshop ω μ}

namespace Session

/-- The session with a number for its programmer. -/
def numbered (n : Nat) (s : Session μ) : Session (Nat × μ) :=
  ⟨s.programmer.map fun o => ⟨o.driver, o.args, (n, o.handle)⟩, s.chip, s.strategy⟩

/-- What the record of a watched workshop gets when the programmer of a session is opened. -/
def opening (n : Nat) (s : Session μ) : List Event :=
  if s.programmer.isSome then [.opened n] else []

/-- What it gets when the programmer is closed. -/
def closing (n : Nat) (s : Session μ) : List Event :=
  if s.programmer.isSome then [.closed n] else []

theorem next_closing (log : List Event) (n : Nat) (s : Session μ) :
    Event.next (log ++ closing n s) = Event.next log := by
  unfold closing
  split <;> simp [Event.next, List.countP_append, Event.isOpening]

theorem shutdown_eq (shop : Workshop ω μ) (s : Session μ) (w : ω) :
    ∃ r w', shutdown shop (s, w) = (r, (⟨none, s.chip, s.strategy⟩, w')) := by
  obtain ⟨_ | o, chip, strategy⟩ := s
  · exact ⟨_, w, rfl⟩
  · simp only [shutdown]
    rcases shop.close o.handle (shop.note (shutdownNotice o.driver) w) with ⟨_ | _, w'⟩
    · exact ⟨_, w', rfl⟩
    · exact ⟨_, w', rfl⟩

/-- Closing the programmer is put on record, however it ends. -/
theorem shutdown_numbered {s : Session μ} {w w' : ω} {r : Except (Halt Failure) Unit}
    (h : shutdown shop (s, w) = (r, (⟨none, s.chip, s.strategy⟩, w'))) (n : Nat)
    (log : List Event) : shutdown shop.watched (s.numbered n, (w, log)) =
      (r, (⟨none, s.chip, s.strategy⟩, (w', log ++ closing n s))) := by
  obtain ⟨_ | o, chip, strategy⟩ := s
  · cases h
    simp [numbered, closing, shutdown]
  · cases hclose : shop.close o.handle (shop.note (shutdownNotice o.driver) w) with
    | mk closed w₁ =>
      have hwatched := Workshop.close_watched hclose n log
      change shop.watched.close _ (shop.watched.note _ (w, log)) = _ at hwatched
      simp only [shutdown, hclose] at h
      simp only [numbered, Option.map_some, shutdown, hwatched]
      cases closed with
      | ok _ =>
        cases h
        rfl
      | error e =>
        cases h
        rfl

/-- What a session does comes to this, and leaves this. -/
abbrev Outcome (ω μ : Type) : Type := Except (Halt Failure) Unit × (Session μ × ω)

/-- The three ways in which setting a programmer ends: what the shutdown of the old one came to,
what all of it came to, and the same with its record. -/
inductive Replaces (args : String) (n : Nat) (log : List Event) (s : Session μ) :
    Outcome ω μ → Outcome ω μ → Outcome (ω × List Event) (Nat × μ) → Prop where
  | stuck (e : Halt Failure) (w : ω) :
      Replaces args n log s (.error e, (⟨none, s.chip, s.strategy⟩, w))
        (.error e, (⟨none, s.chip, s.strategy⟩, w))
        (.error e, (⟨none, s.chip, s.strategy⟩, (w, log ++ closing n s)))
  | refused (f : Failure) (w w' : ω) :
      Replaces args n log s (.ok (), (⟨none, s.chip, s.strategy⟩, w))
        (.error (.error f), (⟨none, none, s.strategy⟩, w'))
        (.error (.error f), (⟨none, none, s.strategy⟩, (w', log ++ closing n s)))
  | done (driver : String) (handle : μ) (w w' : ω) :
      Replaces args n log s (.ok (), (⟨none, s.chip, s.strategy⟩, w))
        (.ok (), (⟨some ⟨driver, args, handle⟩, none, s.strategy⟩, w'))
        (.ok (), (⟨some ⟨driver, args, (Event.next log, handle)⟩, none, s.strategy⟩,
          (w', log ++ closing n s ++ [.opened (Event.next log)])))

namespace Replaces

variable {args : String} {n : Nat} {log : List Event} {s : Session μ} {closed x : Outcome ω μ}
  {y : Outcome (ω × List Event) (Nat × μ)}

theorem record (h : Replaces args n log s closed x y) :
    y = (x.1, (x.2.1.numbered (Event.next log),
      (x.2.2, log ++ closing n s ++ opening (Event.next log) x.2.1))) := by
  cases h <;> simp [numbered, opening]

theorem not_open (h : Replaces args n log s closed x y) (hs : s.programmer.isSome) :
    ¬Event.Open y.2.2.2 n := by
  intro hopen
  apply hopen.2
  rw [h.record]
  simp [closing, hs]

theorem ok_iff (h : Replaces args n log s closed x y) :
    x.1 = .ok () ↔ x.2.1.programmer.isSome := by
  cases h <;> simp

theorem chip_iff (h : Replaces args n log s closed x y) :
    x.2.1.chip = none ↔ s.chip = none ∨ closed.1 = .ok () := by
  cases h <;> simp

theorem eq_closed (h : Replaces args n log s closed x y) (e : Halt Failure)
    (he : closed.1 = .error e) : x = closed := by
  cases h with
  | stuck => rfl
  | refused => cases he
  | done => cases he

end Replaces

theorem setProgrammer_replaces (shop : Workshop ω μ) (args : String) (s : Session μ) (w : ω)
    (n : Nat) (log : List Event) :
    Replaces args n log s (shutdown shop (s, w)) (setProgrammer shop args (s, w))
      (setProgrammer shop.watched args (s.numbered n, (w, log))) := by
  obtain ⟨r, w', hs⟩ := shutdown_eq shop s w
  have hwatched := shutdown_numbered hs n log
  cases r with
  | error e =>
    rw [setProgrammer, setProgrammer, Act.bind_error hs, Act.bind_error hwatched, hs]
    exact .stuck e w'
  | ok _ =>
    rw [setProgrammer_ok hs, setProgrammer_ok hwatched, hs]
    rcases shop.openProgrammer_watched args w' (log ++ closing n s) with
      ⟨driver, handle, w₁, hx, hy⟩ | ⟨f, w₁, hx, hy⟩
    · rw [hx, hy, next_closing]
      exact .done driver handle w' w₁
    · rw [hx, hy]
      exact .refused f w' w₁

/-- What setting a programmer leaves, with the record of the watched workshop: the old programmer is
closed, and there is a programmer just when all went well. The chip is gone unless the shutdown of
the old programmer failed; then all that was done is this shutdown. -/
theorem setProgrammer_leaves (shop : Workshop ω μ) (args : String) (s : Session μ) (w : ω)
    (n : Nat) (log : List Event) :
    let x := setProgrammer shop args (s, w)
    let y := setProgrammer shop.watched args (s.numbered n, (w, log))
    y = (x.1, (x.2.1.numbered (Event.next log),
        (x.2.2, log ++ closing n s ++ opening (Event.next log) x.2.1))) ∧
      (s.programmer.isSome → ¬Event.Open y.2.2.2 n) ∧
      (x.1 = .ok () ↔ x.2.1.programmer.isSome) ∧
      (x.2.1.chip = none ↔ s.chip = none ∨ (shutdown shop (s, w)).1 = .ok ()) ∧
      ∀ e, (shutdown shop (s, w)).1 = .error e → x = shutdown shop (s, w) := by
  have h := setProgrammer_replaces shop args s w n log
  exact ⟨h.record, h.not_open, h.ok_iff, h.chip_iff, h.eq_closed⟩

/-- Where the image of the old programmer cannot be saved, closing it is all that is done. -/
theorem setProgrammer_leaves_unsaved :
    let shop := (Equipment.shelf ["missing/x.bin"]).workshop [Chip.sample]
    let s := after shop [.operation (.setProgrammer "dummy:chip=sample,image=missing/x.bin")] []
    let x := setProgrammer shop "dummy:chip=sample" s
    let y := setProgrammer shop.watched "dummy:chip=sample" (s.1.numbered 0, (s.2, [.opened 0]))
    s.1.programmer.isSome ∧ (shutdown shop s).1 = .error (.error (.core .programmer)) ∧
      x = shutdown shop s ∧ y.2.2.2 = [.opened 0, .closed 0] ∧ ¬Event.Open y.2.2.2 0 := by
  intro shop s x y
  have hold : s.1.programmer.isSome := by decide +kernel
  have hfailed : (shutdown shop s).1 = .error (.error (.core .programmer)) := by decide +kernel
  have hnone : x.2.1.programmer = none := by decide +kernel
  obtain ⟨hrecord, hclosed, _, _, hstuck⟩ :=
    setProgrammer_leaves shop "dummy:chip=sample" s.1 s.2 0 [.opened 0]
  have hlog : y.2.2.2 = [.opened 0] ++ closing 0 s.1 ++ opening (Event.next [.opened 0]) x.2.1 :=
    congrArg (fun y => y.2.2.2) hrecord
  refine ⟨hold, hfailed, hstuck _ hfailed, ?_, hclosed hold⟩
  rw [hlog]
  simp [closing, opening, hold, hnone]

/-- The image of the old programmer cannot be saved: its chip stays selected beside no programmer,
though the new one could have been opened. -/
theorem chip_outlives_programmer :
    let shop := (Equipment.shelf ["missing/x.bin"]).workshop [Chip.sample]
    let s := after shop [.operation (.setProgrammer "dummy:chip=sample,image=missing/x.bin"),
      .operation (.setChip "sample")] []
    let x := setProgrammer shop "dummy:chip=sample" s
    s.1.programmer.isSome ∧ s.1.chip = some Chip.sample ∧
      x.1 = .error (.error (.core .programmer)) ∧ x.2.1.programmer.isNone ∧
      x.2.1.chip = some Chip.sample ∧
      (setProgrammer shop "dummy:chip=sample" ({}, [])).1 = .ok () := by
  decide +kernel

end Session
end NorFlash
