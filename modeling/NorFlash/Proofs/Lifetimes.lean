import NorFlash.Proofs.Workshops

namespace NorFlash

/-- What befalls the programmer with a number. -/
inductive Event where
  | opened (n : Nat)
  | executed (n : Nat) (c : Command)
  | closed (n : Nat)

namespace Event

def programmer : Event → Nat
  | opened n | executed n _ | closed n => n

def isOpening : Event → Bool
  | opened _ => true
  | _ => false

/-- The number of the next programmer that is opened. -/
def next (log : List Event) : Nat := log.countP isOpening

end Event

variable {ω μ ε α β : Type}

def Driver.watched (d : Driver ω μ) : Driver (ω × List Event) (Nat × μ) where
  name := d.name
  connect args := fun (w, log) =>
    match d.connect args w with
    | (.ok handle, w) => (.ok (Event.next log, handle), (w, log ++ [.opened (Event.next log)]))
    | (.error f, w) => (.error f, (w, log))

def Programmer.watched (p : Programmer (μ × ω)) :
    Programmer ((Nat × μ) × (ω × List Event)) where
  maxRead := fun ((_, h), (w, _)) => p.maxRead (h, w)
  maxWrite := fun ((_, h), (w, _)) => p.maxWrite (h, w)
  execute c := fun ((n, h), (w, log)) =>
    match p.execute c (h, w) with
    | (r, (h, w)) => (r, ((n, h), (w, log ++ [.executed n c])))
  delay t := fun ((n, h), (w, log)) =>
    match p.delay t (h, w) with
    | (h, w) => ((n, h), (w, log))
  report e := fun ((n, h), (w, log)) =>
    match p.report e (h, w) with
    | (h, w) => ((n, h), (w, log))
  note m := fun ((n, h), (w, log)) =>
    match p.note m (h, w) with
    | (h, w) => ((n, h), (w, log))
  patience := p.patience

/-- A step beside a record that it knows nothing of. -/
def Act.beside (x : Act ω ε α) : Act (ω × List Event) ε α := fun (w, log) =>
  match x w with
  | (r, w) => (r, (w, log))

def FileStore.watched (files : FileStore ω) : FileStore (ω × List Event) where
  read path := (files.read path).beside
  write path data := (files.write path data).beside
  note n := fun (w, log) => (files.note n w, log)

def Workshop.watched (shop : Workshop ω μ) : Workshop (ω × List Event) (Nat × μ) where
  drivers := shop.drivers.map Driver.watched
  programmer := shop.programmer.watched
  close := fun (n, h) (w, log) =>
    match shop.close h w with
    | (r, w) => (r, (w, log ++ [.closed n]))
  catalog := shop.catalog
  files := shop.files.watched

/-- The programmer without its number. -/
def Opened.plain (o : Opened (Nat × μ)) : Opened μ := ⟨o.driver, o.args, o.handle.2⟩

def Session.plain (s : Session (Nat × μ)) : Session μ :=
  ⟨s.programmer.map Opened.plain, s.chip, s.strategy⟩

inductive Call where
  | operation (op : Operation)
  | run (q : Queue)
  | shutdown

def Call.perform (shop : Workshop ω μ) : Call → Session.Step ω μ Unit
  | operation op => op.execute shop
  | run q => q.run shop
  | shutdown => Session.shutdown shop

/-- A new session after some calls, however they ended. -/
def Session.after (shop : Workshop ω μ) (calls : List Call) (w : ω) : Session μ × ω :=
  calls.foldl (fun s call => (call.perform shop s).2) ({}, w)

/-- What a session leaves that is dropped after some calls. -/
def Session.lifetime (shop : Workshop ω μ) (calls : List Call) (w : ω) : ω :=
  Session.drop shop (Session.after shop calls w).1 (Session.after shop calls w).2

namespace Event

/-- A programmer is opened and executes some commands. -/
def begun (n : Nat) (cs : List Command) : List Event := .opened n :: cs.map (.executed n)

/-- Programmers with the numbers from `n` on, each closed before the next is opened. -/
def lives : Nat → List (List Command) → List Event
  | _, [] => []
  | n, cs :: uses => begun n cs ++ .closed n :: lives (n + 1) uses

/-- The programmer has been opened and not closed. -/
def Open (log : List Event) (n : Nat) : Prop := .opened n ∈ log ∧ .closed n ∉ log

/-- Every programmer that is opened executes commands and is then closed. It is heard of neither
before nor after that, nothing is heard of others in between, and nothing is heard of programmers
that are not opened. -/
structure Orderly (log : List Event) : Prop where
  life : ∀ before n after, log = before ++ .opened n :: after →
    ∃ (cs : List Command) (rest : List Event), after = cs.map (.executed n) ++ .closed n :: rest ∧
      ∀ e ∈ before ++ rest, e.programmer ≠ n
  alone : ∀ before, before <+: log → ∀ n m, Open before n → Open before m → n = m
  opened : ∀ e ∈ log, .opened e.programmer ∈ log

variable {n m : Nat} {cs : List Command} {uses : List (List Command)} {e : Event}
  {before after : List Event}

theorem programmer_of_mem_begun (h : e ∈ begun n cs) : e.programmer = n := by
  rcases List.mem_cons.mp h with rfl | h
  · rfl
  · obtain ⟨c, _, rfl⟩ := List.mem_map.mp h
    rfl

theorem le_of_mem_lives (h : e ∈ lives n uses) : n ≤ e.programmer := by
  induction uses generalizing n with
  | nil => cases h
  | cons cs uses ih =>
    rcases List.mem_append.mp h with h | h
    · exact Nat.le_of_eq (programmer_of_mem_begun h).symm
    · rcases List.mem_cons.mp h with rfl | h
      · exact Nat.le_refl n
      · exact Nat.le_of_succ_le (ih h)

theorem lives_cons : lives n (cs :: uses) = (begun n cs ++ [.closed n]) ++ lives (n + 1) uses := by
  simp [lives]

theorem lives_snoc : lives n (uses ++ [cs]) =
    lives n uses ++ (begun (n + uses.length) cs ++ [.closed (n + uses.length)]) := by
  induction uses generalizing n with
  | nil => rfl
  | cons ds uses ih =>
    simp only [List.cons_append, lives, ih, List.length_cons, List.append_assoc]
    rw [Nat.add_right_comm, Nat.add_assoc]

theorem next_begun : next (begun n cs) = 1 := by
  simp [next, begun, List.countP_cons, List.countP_map, Function.comp_def, isOpening]

theorem next_lives (n : Nat) (uses : List (List Command)) : next (lives n uses) = uses.length := by
  induction uses generalizing n with
  | nil => rfl
  | cons cs uses ih =>
    have hbegun : (begun n cs).countP isOpening = 1 := next_begun
    have hrest : (lives (n + 1) uses).countP isOpening = uses.length := ih (n + 1)
    rw [next, lives, List.countP_append, List.countP_cons, hbegun, hrest]
    simp [isOpening, Nat.add_comm]

/-- A place in the record of lives is the start of one of them or lies in the ones after it. -/
theorem lives_split (h : lives n (cs :: uses) = before ++ .opened m :: after) :
    (before = [] ∧ m = n ∧ after = cs.map (.executed n) ++ .closed n :: lives (n + 1) uses) ∨
      ∃ more, before = begun n cs ++ .closed n :: more ∧
        lives (n + 1) uses = more ++ .opened m :: after := by
  rw [lives_cons] at h
  rcases List.append_eq_append_iff.mp h with ⟨more, hbefore, hmore⟩ | ⟨more, hbegun, hafter⟩
  · exact .inr ⟨more, by rw [hbefore]; simp, hmore⟩
  · cases more with
    | nil => exact .inr ⟨[], by simpa using hbegun.symm, by simpa using hafter.symm⟩
    | cons x more =>
      rw [List.cons_append, List.cons.injEq] at hafter
      obtain ⟨rfl, hafter⟩ := hafter
      cases before with
      | nil =>
        simp only [begun, List.nil_append, List.cons_append, List.cons.injEq, opened.injEq]
          at hbegun
        obtain ⟨rfl, rfl⟩ := hbegun
        exact .inl ⟨rfl, rfl, by simpa using hafter⟩
      | cons y before =>
        have hmem : Event.opened m ∈ cs.map (.executed n) ++ [.closed n] := by
          simp only [begun, List.cons_append, List.cons.injEq] at hbegun
          rw [hbegun.2]
          simp
        simp at hmem

/-- The life that begins with an opening is whole, and its programmer is not heard of again. -/
theorem lives_life (h : lives n uses = before ++ .opened m :: after) :
    ∃ (cs : List Command) (rest : List Event), after = cs.map (.executed m) ++ .closed m :: rest ∧
      ∀ e ∈ before ++ rest, e.programmer ≠ m := by
  induction uses generalizing n before with
  | nil => simp [lives] at h
  | cons cs uses ih =>
    have hlater : ∀ e ∈ lives (n + 1) uses, e.programmer ≠ n := fun e he =>
      Nat.ne_of_gt (le_of_mem_lives he)
    rcases lives_split h with ⟨rfl, rfl, rfl⟩ | ⟨more, rfl, hmore⟩
    · exact ⟨cs, _, rfl, by simpa using hlater⟩
    · obtain ⟨ds, rest, hafter, hrest⟩ := ih hmore
      refine ⟨ds, rest, hafter, fun e he => ?_⟩
      have hm : m ≠ n := hlater (.opened m) (by rw [hmore]; simp)
      simp only [List.append_assoc, List.mem_append, List.cons_append, List.mem_cons] at he
      rcases he with he | rfl | he
      · rw [programmer_of_mem_begun he]
        exact hm.symm
      · exact hm.symm
      · exact hrest e (List.mem_append.mpr he)

theorem open_of_begun (hp : before <+: begun n cs ++ [.closed n]) (ho : Open before m) : m = n := by
  have hm := hp.subset ho.1
  simpa [begun] using hm

/-- What is open behind a whole life was opened behind it. -/
theorem open_behind (ho : Open (begun n cs ++ [.closed n] ++ after) m) : Open after m := by
  have hne : m ≠ n := by
    rintro rfl
    exact ho.2 (by simp)
  refine ⟨?_, fun hc => ho.2 (List.mem_append_right _ hc)⟩
  simpa [begun, hne] using ho.1

/-- At no place in the record of lives two programmers are open. -/
theorem lives_alone {k : Nat} (hp : before <+: lives n uses) (hm : Open before m)
    (hk : Open before k) : m = k := by
  induction uses generalizing n before with
  | nil =>
    rw [List.prefix_nil.mp hp] at hm
    cases hm.1
  | cons cs uses ih =>
    rw [lives_cons] at hp
    -- either the first life goes on, or it is over and the next ones are looked at
    rcases List.prefix_or_prefix_of_prefix hp (List.prefix_append _ _) with h | ⟨more, rfl⟩
    · rw [open_of_begun h hm, open_of_begun h hk]
    · have hmore : more <+: lives (n + 1) uses := (List.prefix_append_right_inj _).mp hp
      exact ih hmore (open_behind hm) (open_behind hk)

theorem lives_opened (h : e ∈ lives n uses) : .opened e.programmer ∈ lives n uses := by
  induction uses generalizing n with
  | nil => cases h
  | cons cs uses ih =>
    rw [lives, List.mem_append, List.mem_cons] at h
    rcases h with h | rfl | h
    · rw [programmer_of_mem_begun h]
      simp [lives, begun]
    · simp [lives, begun, programmer]
    · have hopened := ih h
      rw [lives, List.mem_append, List.mem_cons]
      exact .inr (.inr hopened)

theorem lives_orderly : Orderly (lives n uses) where
  life _ _ _ := lives_life
  alone _ hp _ _ := lives_alone hp
  opened _ := lives_opened

end Event

/-- A programmer at work keeps its number, and what it executes is recorded. -/
def InUse (n : Nat) (log : List Event) (s : (Nat × μ) × (ω × List Event)) (t : μ × ω) : Prop :=
  ∃ h w, ∃ cs : List Command, s = ((n, h), (w, log ++ cs.map (.executed n))) ∧ t = (h, w)

/-- The record tells of lives that are over and, if a programmer is open, of its life so far. -/
inductive Tracked : Option (Opened (Nat × μ)) → List Event → Prop where
  | ended (uses : List (List Command)) : Tracked none (Event.lives 0 uses)
  | inUse (uses : List (List Command)) (cs : List Command) (driver args : String) (handle : μ) :
      Tracked (some ⟨driver, args, (uses.length, handle)⟩)
        (Event.lives 0 uses ++ Event.begun uses.length cs)

/-- The session as it is watched beside the same session as it is not. -/
def Session.Watched (s : Session (Nat × μ) × (ω × List Event)) (t : Session μ × ω) : Prop :=
  ∃ p chip strategy w log, s = (⟨p, chip, strategy⟩, (w, log)) ∧
    t = (⟨p.map Opened.plain, chip, strategy⟩, w) ∧ Tracked p log

/-- Programmer, chip and strategy have stayed. Commands may have been executed, if there is a
programmer. -/
inductive Session.Working : Session (Nat × μ) × (ω × List Event) →
    Session (Nat × μ) × (ω × List Event) → Prop where
  | idle (chip : Option Chip) (strategy : Strategy) (w w' : ω) (log : List Event) :
      Working (⟨none, chip, strategy⟩, (w, log)) (⟨none, chip, strategy⟩, (w', log))
  | inUse (driver args : String) (n : Nat) (h h' : μ) (chip : Option Chip) (strategy : Strategy)
      (w w' : ω) (log : List Event) (cs : List Command) :
      Working (⟨some ⟨driver, args, (n, h)⟩, chip, strategy⟩, (w, log))
        (⟨some ⟨driver, args, (n, h')⟩, chip, strategy⟩, (w', log ++ cs.map (.executed n)))

/-- The session is watched, and has been at work since `s₀`. -/
def Session.AtWork (s₀ s : Session (Nat × μ) × (ω × List Event)) (t : Session μ × ω) : Prop :=
  Watched s t ∧ Working s₀ s

open Act (Mirrors)

variable {n : Nat} {log : List Event} {shop : Workshop ω μ}

theorem Programmer.watched_parallel (p : Programmer (μ × ω)) :
    p.watched.Parallel (InUse n log) p where
  execute c := by
    rintro _ _ ⟨h, w, cs, rfl, rfl⟩
    exact ⟨rfl, _, _, cs ++ [c], by simp [Programmer.watched], rfl⟩
  delay t := by
    rintro _ _ ⟨h, w, cs, rfl, rfl⟩
    exact ⟨_, _, cs, rfl, rfl⟩
  report e := by
    rintro _ _ ⟨h, w, cs, rfl, rfl⟩
    exact ⟨_, _, cs, rfl, rfl⟩
  note m := by
    rintro _ _ ⟨h, w, cs, rfl, rfl⟩
    exact ⟨_, _, cs, rfl, rfl⟩
  maxRead := by
    rintro _ _ ⟨h, w, cs, rfl, rfl⟩
    rfl
  maxWrite := by
    rintro _ _ ⟨h, w, cs, rfl, rfl⟩
    rfl
  patience := rfl

theorem Act.beside_mirrors (x : Act ω ε α) (log : List Event) :
    Mirrors (Beside log) x.beside x := by
  rintro _ w rfl
  exact ⟨rfl, rfl⟩

theorem FileStore.watched_notes (files : FileStore ω) :
    files.watched.Notes (Beside log) files := by
  rintro n _ w rfl
  rfl

theorem Workshop.close_watched {h : μ} {w w' : ω} {r : Except Error Unit}
    (hclose : shop.close h w = (r, w')) (n : Nat) (log : List Event) :
    shop.watched.close (n, h) (w, log) = (r, (w', log ++ [.closed n])) := by
  simp only [watched, hclose]

theorem Workshop.noteAll_watched (ns : List Notice) (w : ω) :
    ns.foldl (fun s n => shop.watched.note n s) (w, log) =
      (ns.foldl (fun w n => shop.note n w) w, log) :=
  shop.files.watched_notes.all ns rfl

/-- What has no part in the programmer adds nothing to the record. -/
theorem Act.Mirrors.inUse {x : Act (ω × List Event) ε α} {y : Act ω ε α}
    (hxy : ∀ log, Mirrors (Beside log) x y) (n : Nat) (log : List Event) (h' : Nat × μ) (h : μ) :
    Mirrors (Within (InUse n log) h' h) x y := by
  rintro ⟨w, now⟩ v ⟨handle, world, cs, hs, ht⟩
  cases hs
  cases ht
  obtain ⟨r, _, w', hx, hy, rfl⟩ := (hxy (log ++ cs.map (.executed n))).ends (t := w) rfl
  rw [hx, hy]
  exact ⟨rfl, _, w', cs, rfl, rfl⟩

theorem Workshop.watched_parallel (shop : Workshop ω μ) :
    shop.watched.Parallel (InUse n log) shop where
  programmer := shop.programmer.watched_parallel
  notes := by
    rintro h' h m ⟨w, now⟩ v ⟨handle, world, cs, hs, ht⟩
    cases hs
    cases ht
    exact ⟨_, _, cs, rfl, rfl⟩
  catalog := rfl

namespace Session

theorem Working.refl (s : Session (Nat × μ) × (ω × List Event)) : Working s s := by
  obtain ⟨⟨_ | ⟨driver, args, n, h⟩, chip, strategy⟩, w, log⟩ := s
  · exact .idle chip strategy w w log
  · simpa using Working.inUse driver args n h h chip strategy w w log []

theorem Working.more {s : Session (Nat × μ) × (ω × List Event)} {driver args : String} {h h' : μ}
    {chip : Option Chip} {strategy : Strategy} {w w' : ω}
    (hs : Working s (⟨some ⟨driver, args, (n, h)⟩, chip, strategy⟩, (w, log)))
    (cs : List Command) :
    Working s (⟨some ⟨driver, args, (n, h')⟩, chip, strategy⟩,
      (w', log ++ cs.map (.executed n))) := by
  cases hs with
  | inUse _ _ _ h₀ _ _ _ w₀ _ log₀ ds =>
    rw [List.append_assoc, ← List.map_append]
    exact .inUse driver args n h₀ h' chip strategy w₀ w' log₀ (ds ++ cs)

theorem AtWork.watched {x : Step (ω × List Event) (Nat × μ) α} {y : Step ω μ α}
    (h : ∀ s₀, Mirrors (AtWork s₀) x y) : Mirrors Watched x y := by
  intro s t hst
  obtain ⟨hr, hs, _⟩ := h s s t ⟨hst, .refl s⟩
  exact ⟨hr, hs⟩

variable {s₀ : Session (Nat × μ) × (ω × List Event)}

theorem withProgrammer_mirrors {x : String → Work (ω × List Event) (Nat × μ) α}
    {y : String → Work ω μ α} (h : ∀ n log args, Mirrors (InUse n log) (x args) (y args)) :
    Mirrors (AtWork s₀) (withProgrammer x) (withProgrammer y) := by
  rintro _ _ ⟨⟨_, chip, strategy, w, _, rfl, rfl, hnow⟩, hwork⟩
  cases hnow with
  | ended uses => exact ⟨rfl, ⟨_, _, _, _, _, rfl, rfl, .ended uses⟩, hwork⟩
  | inUse uses cs driver args handle =>
    obtain ⟨r, _, _, hx, hy, handle', w', ds, rfl, rfl⟩ :=
      (h uses.length (Event.lives 0 uses ++ Event.begun uses.length cs) args).ends
        ⟨handle, w, [], by rw [List.map_nil, List.append_nil], rfl⟩
    have hlater := Tracked.inUse uses (cs ++ ds) driver args handle'
    rw [Event.begun, List.map_append, ← List.cons_append, ← List.append_assoc] at hlater
    simp only [withProgrammer, Option.map_some, Opened.plain, hx, hy]
    exact ⟨trivial, ⟨_, _, _, _, _, rfl, rfl, hlater⟩, hwork.more ds⟩

theorem withChip_mirrors {x : Chip → Work (ω × List Event) (Nat × μ) α} {y : Chip → Work ω μ α}
    (h : ∀ c n log, Mirrors (InUse n log) (x c) (y c)) :
    Mirrors (AtWork s₀) (withChip x) (withChip y) := by
  rintro _ _ ⟨⟨p, chip, strategy, w, now, rfl, rfl, hnow⟩, hwork⟩
  have hsame : AtWork s₀ (⟨p, chip, strategy⟩, (w, now))
      (⟨p.map Opened.plain, chip, strategy⟩, w) :=
    ⟨⟨p, chip, strategy, w, now, rfl, rfl, hnow⟩, hwork⟩
  cases p with
  | none => exact ⟨rfl, hsame⟩
  | some o =>
    cases chip with
    | none => exact ⟨rfl, hsame⟩
    | some c => exact withProgrammer_mirrors (fun n log _ => h c n log) _ _ hsame

theorem readToFile_mirrors (path : String) :
    Mirrors (AtWork s₀) (readToFile shop.watched path) (readToFile shop path) :=
  withChip_mirrors fun c _ _ => shop.watched_parallel.readWork c fun data =>
    .inUse (Act.beside_mirrors (shop.files.write path data)) _ _

theorem writeFromFile_mirrors (path : String) :
    Mirrors (AtWork s₀) (writeFromFile shop.watched path) (writeFromFile shop path) := by
  refine .bind (.read ?_) fun x => withChip_mirrors fun c _ _ => ?_
  · rintro _ _ ⟨⟨p, chip, strategy, w, now, rfl, rfl, _⟩, _⟩
    rfl
  · exact shop.watched_parallel.writeWork x c (.inUse (Act.beside_mirrors (shop.files.read path)) _ _)

theorem verifyFile_mirrors (path : String) :
    Mirrors (AtWork s₀) (verifyFile shop.watched path) (verifyFile shop path) :=
  withChip_mirrors fun c _ _ => shop.watched_parallel.verifyWork c
    (.inUse (Act.beside_mirrors (shop.files.read path)) _ _)

/-- What is asked of the programmer before a chip is selected. -/
theorem probing_mirrors (name : String) : Mirrors (AtWork s₀)
    (withProgrammer (selecting shop.watched name)) (withProgrammer (selecting shop name)) :=
  withProgrammer_mirrors fun _ _ args => shop.watched_parallel.selecting name args

theorem setChip_mirrors (name : String) :
    Mirrors Watched (setChip shop.watched name) (setChip shop name) := by
  refine .bind (AtWork.watched fun _ => probing_mirrors name) fun c => .modify ?_
  rintro _ _ ⟨p, chip, strategy, w, now, rfl, rfl, hnow⟩
  exact ⟨p, some c, strategy, w, now, rfl, rfl, hnow⟩

theorem setStrategy_mirrors (x : Strategy) :
    Mirrors Watched (setStrategy shop.watched x) (setStrategy shop x) := by
  refine .bind (.modify ?_) fun _ => .modify ?_
  · rintro _ _ ⟨p, chip, strategy, w, now, rfl, rfl, hnow⟩
    exact ⟨p, chip, strategy, _, now, rfl, rfl, hnow⟩
  · rintro _ _ ⟨p, chip, strategy, w, now, rfl, rfl, hnow⟩
    exact ⟨p, chip, x, w, now, rfl, rfl, hnow⟩

theorem shutdown_mirrors (shop : Workshop ω μ) :
    Mirrors Watched (shutdown shop.watched) (shutdown shop) := by
  rintro _ _ ⟨_, chip, strategy, w, _, rfl, rfl, hnow⟩
  cases hnow with
  | ended uses => exact ⟨rfl, _, _, _, _, _, rfl, rfl, .ended uses⟩
  | inUse uses cs driver args handle =>
    have hended := Tracked.ended (μ := μ) (uses ++ [cs])
    rw [Event.lives_snoc, Nat.zero_add, ← List.append_assoc] at hended
    cases hclose : shop.close handle (shop.note (shutdownNotice driver) w) with
    | mk r w' =>
      have hwatched := Workshop.close_watched hclose uses.length
        (Event.lives 0 uses ++ Event.begun uses.length cs)
      change shop.watched.close _ (shop.watched.note _ (w, _)) = _ at hwatched
      simp only [shutdown, Option.map_some, Opened.plain, hwatched, hclose]
      cases r with
      | error e => exact ⟨rfl, _, _, _, _, _, rfl, rfl, hended⟩
      | ok _ => exact ⟨rfl, _, _, _, _, _, rfl, rfl, hended⟩

/-- However a shutdown ends, no programmer is left open. -/
theorem shutdown_programmer (shop : Workshop ω μ) (s : Session μ × ω) :
    (shutdown shop s).2.1.programmer = none := by
  obtain ⟨⟨programmer, chip, strategy⟩, w⟩ := s
  cases programmer with
  | none => rfl
  | some o =>
    simp only [shutdown]
    rcases shop.close o.handle (shop.note (shutdownNotice o.driver) w) with ⟨_ | _, _⟩ <;> rfl

/-- However a shutdown ends, the lives on record are over then. -/
theorem shutdown_watched {s : Session (Nat × μ) × (ω × List Event)} {t : Session μ × ω}
    (h : Watched s t) (shop : Workshop ω μ) : ∃ r chip strategy w uses,
      shutdown shop.watched s = (r, (⟨none, chip, strategy⟩, (w, Event.lives 0 uses))) ∧
        shutdown shop t = (r, (⟨none, chip, strategy⟩, w)) := by
  obtain ⟨r, s', t', hs, ht, p, chip, strategy, w, log, rfl, rfl, hnow⟩ :=
    (shutdown_mirrors shop).ends h
  have hclosed := shutdown_programmer shop.watched s
  rw [hs] at hclosed
  cases hnow with
  | inUse => cases hclosed
  | ended uses => exact ⟨r, chip, strategy, w, uses, hs, ht⟩

end Session

namespace Workshop

theorem connect_watched {d : Driver ω μ} {args : String} {w w' : ω} {r : Except Failure μ}
    (h : d.connect args w = (r, w')) (log : List Event) : d.watched.connect args (w, log) =
      match r with
      | .ok handle => (.ok (Event.next log, handle), (w', log ++ [.opened (Event.next log)]))
      | .error f => (.error f, (w', log)) := by
  simp only [Driver.watched, h]
  cases r with
  | ok handle => rfl
  | error f => rfl

theorem first_watched (shop : Workshop ω μ) (args : String) (drivers : List (Driver ω μ)) (w : ω)
    (log : List Event) :
    (∃ d handle w',
      Act.first (shop.watched.attempt args) (drivers.map Driver.watched) (w, log) =
          (.ok (some (d.watched, (Event.next log, handle))),
            (w', log ++ [.opened (Event.next log)])) ∧
        Act.first (shop.attempt args) drivers w = (.ok (some (d, handle)), w')) ∨
      ∃ w', Act.first (shop.watched.attempt args) (drivers.map Driver.watched) (w, log) =
          (.ok none, (w', log)) ∧
        Act.first (shop.attempt args) drivers w = (.ok none, w') := by
  induction drivers generalizing w with
  | nil => exact .inr ⟨w, rfl, rfl⟩
  | cons d drivers ih =>
    cases hconnect : d.connect args w with
    | mk r w' =>
      simp only [List.map_cons, Act.first, attempt, connect_watched hconnect, hconnect]
      cases r with
      | ok handle => exact .inl ⟨d, handle, w', rfl, rfl⟩
      | error f => exact ih _

/-- Of all that is tried for a programmer only the one that opens is recorded. -/
theorem openProgrammer_watched (shop : Workshop ω μ) (args : String) (w : ω) (log : List Event) :
    (∃ driver handle w', shop.watched.openProgrammer args (w, log) =
          (.ok ⟨driver, args, (Event.next log, handle)⟩, (w', log ++ [.opened (Event.next log)])) ∧
        shop.openProgrammer args w = (.ok ⟨driver, args, handle⟩, w')) ∨
      ∃ f w', shop.watched.openProgrammer args (w, log) = (.error f, (w', log)) ∧
        shop.openProgrammer args w = (.error f, w') := by
  unfold openProgrammer
  split
  · rcases first_watched shop args shop.drivers w log with
      ⟨d, handle, w', hx, hy⟩ | ⟨w', hx, hy⟩
    · exact .inl ⟨d.name, handle, _, Act.bind_ok hx, Act.bind_ok hy⟩
    · exact .inr ⟨_, w', Act.bind_ok hx, Act.bind_ok hy⟩
  · have hfind : shop.watched.drivers.find? (fun d => d.name == Parameters.programmerName args) =
        (shop.drivers.find? fun d => d.name == Parameters.programmerName args).map
          Driver.watched :=
      List.find?_map
    unfold openNamed
    rw [hfind]
    cases shop.drivers.find? fun d => d.name == Parameters.programmerName args with
    | none => exact .inr ⟨_, w, rfl, rfl⟩
    | some d =>
      cases hconnect : d.connect args w with
      | mk r w' =>
        have hwatched := connect_watched hconnect log
        cases r with
        | ok handle =>
          exact .inl ⟨d.name, handle, _, Act.bind_ok hwatched, Act.bind_ok hconnect⟩
        | error f => exact .inr ⟨f, w', Act.bind_error hwatched, Act.bind_error hconnect⟩

end Workshop

namespace Session

theorem setProgrammer_ok {args : String} {s : Session μ × ω} {s' : Session μ} {w : ω}
    (h : shutdown shop s = (.ok (), (s', w))) : setProgrammer shop args s =
      match shop.openProgrammer args w with
      | (.ok o, w) => (.ok (), (⟨some o, none, s'.strategy⟩, w))
      | (.error f, w) => (.error (.error f), (⟨s'.programmer, none, s'.strategy⟩, w)) := by
  rw [setProgrammer, Act.bind_ok h]
  rfl

theorem setProgrammer_mirrors (args : String) :
    Mirrors Watched (setProgrammer shop.watched args) (setProgrammer shop args) := by
  intro s t h
  obtain ⟨r, chip, strategy, w, uses, hs, ht⟩ := shutdown_watched h shop
  cases r with
  | error e =>
    rw [setProgrammer, setProgrammer, Act.bind_error hs, Act.bind_error ht]
    exact ⟨rfl, _, _, _, _, _, rfl, rfl, .ended uses⟩
  | ok _ =>
    have hnext := Event.next_lives 0 uses
    rw [setProgrammer_ok hs, setProgrammer_ok ht]
    rcases shop.openProgrammer_watched args w (Event.lives 0 uses) with
      ⟨driver, handle, w', hx, hy⟩ | ⟨f, w', hx, hy⟩
    · rw [hx, hy, hnext]
      exact ⟨rfl, _, _, _, _, _, rfl, rfl, .inUse uses [] driver args handle⟩
    · rw [hx, hy]
      exact ⟨rfl, _, _, _, _, _, rfl, rfl, .ended uses⟩

end Session

/-- Operations on a file leave the selections alone. -/
theorem Operation.execute_atWork (op : Operation) {path : String} (h : op.path? = some path)
    (s₀ : Session (Nat × μ) × (ω × List Event)) :
    Mirrors (Session.AtWork s₀) (op.execute shop.watched) (op.execute shop) := by
  cases op with
  | read path => exact Session.readToFile_mirrors path
  | write path => exact .bind (Session.writeFromFile_mirrors path) fun _ => .pure ()
  | verify path => exact .bind (Session.verifyFile_mirrors path) fun _ => .pure ()
  | setStrategy x => cases h
  | setChip name => cases h
  | setProgrammer args => cases h

theorem Operation.execute_mirrors (shop : Workshop ω μ) (op : Operation) :
    Mirrors Session.Watched (op.execute shop.watched) (op.execute shop) := by
  cases op with
  | read path => exact Session.AtWork.watched (execute_atWork (.read path) rfl)
  | write path => exact Session.AtWork.watched (execute_atWork (.write path) rfl)
  | verify path => exact Session.AtWork.watched (execute_atWork (.verify path) rfl)
  | setStrategy x => exact Session.setStrategy_mirrors x
  | setChip name => exact Session.setChip_mirrors name
  | setProgrammer args => exact Session.setProgrammer_mirrors args

theorem Session.Watched.noteAll {s : Session (Nat × μ) × (ω × List Event)} {t : Session μ × ω}
    (h : Session.Watched s t) (shop : Workshop ω μ) (ns : List Notice) :
    Session.Watched (s.1, ns.foldl (fun w n => shop.watched.note n w) s.2)
      (t.1, ns.foldl (fun w n => shop.note n w) t.2) := by
  obtain ⟨p, chip, strategy, w, log, rfl, rfl, hnow⟩ := h
  rw [Workshop.noteAll_watched]
  exact ⟨p, chip, strategy, _, log, rfl, rfl, hnow⟩

theorem Queue.runAll_mirrors (shop : Workshop ω μ) (ops : List Operation) :
    Mirrors Session.Watched (Queue.runAll shop.watched ops) (Queue.runAll shop ops) := by
  induction ops with
  | nil => exact .pure ()
  | cons op rest ih =>
    intro s t h
    have hnoted := h.noteAll shop [.debug fun _ => s!"Executing {op.text}"]
    obtain ⟨r, s', t', hs, ht, h'⟩ := (op.execute_mirrors shop).ends hnoted
    simp only [List.foldl_cons, List.foldl_nil] at hs ht
    simp only [Queue.runAll, hs, ht]
    cases r with
    | ok _ => exact ih s' t' h'
    | error e => exact ⟨rfl, h'.noteAll shop _⟩

theorem Queue.run_mirrors (q : Queue) :
    Mirrors Session.Watched (q.run shop.watched) (q.run shop) := by
  intro s t h
  obtain ⟨r, s', t', hs, ht, h'⟩ := (Queue.runAll_mirrors shop q.operations).ends h
  obtain ⟨closed, s'', t'', hs', ht', h''⟩ := (Session.shutdown_mirrors shop).ends h'
  unfold Queue.run
  rw [hs, ht]
  dsimp only
  rw [hs', ht']
  exact ⟨rfl, h''⟩

theorem Call.perform_mirrors (call : Call) :
    Mirrors Session.Watched (call.perform shop.watched) (call.perform shop) := by
  cases call with
  | operation op => exact op.execute_mirrors shop
  | run q => exact q.run_mirrors
  | shutdown => exact Session.shutdown_mirrors shop

/-- Watching changes nothing in a session, and the record tells of its programmers' lives. -/
theorem Session.after_watched (shop : Workshop ω μ) (calls : List Call) (w : ω) :
    Session.Watched (Session.after shop.watched calls (w, [])) (Session.after shop calls w) := by
  suffices h : ∀ s t, Session.Watched s t →
      Session.Watched (calls.foldl (fun s call => (call.perform shop.watched s).2) s)
        (calls.foldl (fun s call => (call.perform shop s).2) t) from
    h _ _ ⟨none, none, .default, w, [], rfl, rfl, .ended []⟩
  induction calls with
  | nil => exact fun _ _ h => h
  | cons call calls ih => exact fun s t h => ih _ _ (call.perform_mirrors s t h).2

/-- A session that is dropped leaves no programmer open. -/
theorem Session.drop_watched {s : Session (Nat × μ) × (ω × List Event)} {t : Session μ × ω}
    (h : Session.Watched s t) : ∃ uses,
      Session.drop shop.watched s.1 s.2 = (Session.drop shop t.1 t.2, Event.lives 0 uses) := by
  obtain ⟨r, chip, strategy, w, uses, hs, ht⟩ := Session.shutdown_watched h shop
  refine ⟨uses, ?_⟩
  unfold Session.drop
  rw [hs, ht]
  match r with
  | .ok _ => rfl
  | .error (.error f) => rfl
  | .error .stalled => rfl
  | .error .crashed => rfl

/-- Every programmer that a session opens is closed exactly once and before another is opened, and
executes nothing afterwards, whatever the session is told and wherever that fails, if only the
session is dropped in the end. -/
theorem Session.lifetime_orderly (shop : Workshop ω μ) (calls : List Call) (w : ω) :
    (Session.lifetime shop.watched calls (w, [])).1 = Session.lifetime shop calls w ∧
      Event.Orderly (Session.lifetime shop.watched calls (w, [])).2 := by
  obtain ⟨uses, hdrop⟩ := Session.drop_watched (Session.after_watched shop calls w)
  rw [Session.lifetime, hdrop]
  exact ⟨rfl, Event.lives_orderly⟩

end NorFlash
