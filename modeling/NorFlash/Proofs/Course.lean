import NorFlash.Proofs.CommandOrder
import NorFlash.Proofs.Probed

namespace NorFlash

open Act (Mirrors)

/-- What a workshop is asked to do, messages and reports apart. -/
inductive Deed where
  | connected (driver : String)
  | executed (c : Command)
  | closed
  | fileRead (path : String)
  | fileWritten (path : String)

/-- What an operation may ask for: one on a file has to do with no other file. -/
def Operation.May : Operation → Deed → Prop
  | .read path, .fileWritten p => p = path
  | .write path, .fileRead p => p = path
  | .verify path, .fileRead p => p = path
  | .read _, .executed _ => True
  | .write _, .executed _ => True
  | .verify _, .executed _ => True
  | .setChip _, .executed _ => True
  | .setProgrammer _, .connected _ => True
  | .setProgrammer _, .closed => True
  | _, _ => False

variable {ω μ ε α : Type}

/-- What is found among elements in another form is worked on as if it were found among them. -/
theorem Act.Mirrors.first_map {σ τ ε α β γ γ' : Type} {R : σ → τ → Prop} {u : γ → γ'}
    {f : γ' → Act σ ε (Option β)} {g : γ → Act τ ε (Option β)} {k : Option (γ' × β) → Act σ ε α}
    {l : Option (γ × β) → Act τ ε α} (hf : ∀ x, Mirrors R (f (u x)) (g x))
    (hk : ∀ found, Mirrors R (k (found.map (Prod.map u id))) (l found)) (xs : List γ) :
    Mirrors R (Act.first f (xs.map u) >>= k) (Act.first g xs >>= l) := by
  induction xs with
  | nil => exact hk none
  | cons x xs ih =>
    intro s t hr
    obtain ⟨r, s', t', hx, hy, h'⟩ := (hf x).ends hr
    rw [List.map_cons, Act.bind_apply, Act.bind_apply]
    simp only [Act.first, hx, hy]
    cases r with
    | error e => exact ⟨rfl, h'⟩
    | ok found =>
      cases found with
      | none => exact ih s' t' h'
      | some b => exact hk (some (x, b)) s' t' h'

def Act.traced (d : Deed) (x : Act ω ε α) : Act (ω × List Deed) ε α := x.recorded fun _ => d

def Driver.traced (d : Driver ω μ) : Driver (ω × List Deed) μ where
  name := d.name
  connect args := (d.connect args).traced (.connected d.name)

def Programmer.traced (p : Programmer (μ × ω)) : Programmer (μ × (ω × List Deed)) where
  maxRead := fun (h, (w, _)) => p.maxRead (h, w)
  maxWrite := fun (h, (w, _)) => p.maxWrite (h, w)
  execute c := fun (h, (w, log)) =>
    match p.execute c (h, w) with
    | (r, (h, w)) => (r, (h, (w, log ++ [.executed c])))
  delay t := fun (h, (w, log)) =>
    match p.delay t (h, w) with
    | (h, w) => (h, (w, log))
  report e := fun (h, (w, log)) =>
    match p.report e (h, w) with
    | (h, w) => (h, (w, log))
  note m := fun (h, (w, log)) =>
    match p.note m (h, w) with
    | (h, w) => (h, (w, log))
  patience := p.patience

def FileStore.traced (files : FileStore ω) : FileStore (ω × List Deed) where
  read path := (files.read path).traced (.fileRead path)
  write path data := (files.write path data).traced (.fileWritten path)
  note n := fun (w, log) => (files.note n w, log)

def Workshop.traced (shop : Workshop ω μ) : Workshop (ω × List Deed) μ where
  drivers := shop.drivers.map Driver.traced
  programmer := shop.programmer.traced
  close h := (shop.close h).traced .closed
  catalog := shop.catalog
  files := shop.files.traced

/-- The record has grown by some deeds, all of one kind. -/
inductive Noted (P : Deed → Prop) (log : List Deed) : ω × List Deed → ω → Prop where
  | mk (w : ω) (ds : List Deed) (h : ∀ d ∈ ds, P d) : Noted P log (w, log ++ ds) w

/-- A handle or a session is the same as without the record, which has grown. -/
inductive Traced (P : Deed → Prop) (log : List Deed) : α × (ω × List Deed) → α × ω → Prop where
  | mk (a : α) (w' : ω × List Deed) (w : ω) (h : Noted P log w' w) : Traced P log (a, w') (a, w)

variable {P : Deed → Prop} {log : List Deed} {shop : Workshop ω μ}

theorem Noted.refl (P : Deed → Prop) (log : List Deed) (w : ω) : Noted P log (w, log) w := by
  have h : Noted P log (w, log ++ []) w := .mk w [] (by simp)
  rwa [List.append_nil] at h

theorem Noted.add {w' : ω × List Deed} {w u : ω} (h : Noted P log w' w) {d : Deed} (hd : P d) :
    Noted P log (u, w'.2 ++ [d]) u := by
  cases h with
  | mk _ ds hds =>
    rw [List.append_assoc]
    apply Noted.mk
    intro e he
    rcases List.mem_append.mp he with h | h
    · exact hds e h
    · rw [List.mem_singleton.mp h]
      exact hd

theorem Act.traced_mirrors (x : Act ω ε α) {d : Deed} (hd : P d) :
    Mirrors (Noted P log) (x.traced d) x := by
  intro w' w hw
  cases hw with
  | mk _ ds hds => exact ⟨rfl, (Noted.mk w ds hds).add hd⟩

theorem FileStore.traced_notes (files : FileStore ω) : files.traced.Notes (Noted P log) files := by
  intro n w' w hw
  cases hw with
  | mk _ ds hds => exact .mk _ ds hds

/-- What is noted of the world is noted beside an open programmer. -/
theorem Act.Mirrors.within {x : Act (ω × List Deed) ε α} {y : Act ω ε α}
    (hxy : Mirrors (Noted P log) x y) (h' h : μ) : Mirrors (Within (Traced P log) h' h) x y := by
  intro w' w hw
  cases hw with
  | mk _ _ _ hnoted =>
    obtain ⟨hr, hu⟩ := hxy w' w hnoted
    exact ⟨hr, .mk _ _ _ hu⟩

theorem Programmer.traced_parallel (p : Programmer (μ × ω)) (hP : ∀ c, P (.executed c)) :
    p.traced.Parallel (Traced P log) p where
  execute c := by
    rintro _ _ ⟨h, _, w, hw⟩
    cases hw with
    | mk _ ds hds => exact ⟨rfl, .mk _ _ _ ((Noted.mk w ds hds).add (hP c))⟩
  delay t := by
    rintro _ _ ⟨h, _, w, ⟨_, ds, hds⟩⟩
    exact .mk _ _ _ (.mk _ ds hds)
  report e := by
    rintro _ _ ⟨h, _, w, ⟨_, ds, hds⟩⟩
    exact .mk _ _ _ (.mk _ ds hds)
  note m := by
    rintro _ _ ⟨h, _, w, ⟨_, ds, hds⟩⟩
    exact .mk _ _ _ (.mk _ ds hds)
  maxRead := by
    rintro _ _ ⟨h, _, w, ⟨_, ds, hds⟩⟩
    rfl
  maxWrite := by
    rintro _ _ ⟨h, _, w, ⟨_, ds, hds⟩⟩
    rfl
  patience := rfl

theorem Workshop.traced_parallel (shop : Workshop ω μ) (hP : ∀ c, P (.executed c)) :
    shop.traced.Parallel (Traced P log) shop where
  programmer := shop.programmer.traced_parallel hP
  notes := by
    intro h' h n w' w hw
    cases hw with
    | mk _ _ _ hnoted => exact .mk _ _ _ (shop.files.traced_notes n w' w hnoted)
  catalog := rfl

namespace Session

theorem withProgrammer_traced {x : String → Work (ω × List Deed) μ α} {y : String → Work ω μ α}
    (h : ∀ args, Mirrors (Traced P log) (x args) (y args)) :
    Mirrors (Traced P log) (withProgrammer x) (withProgrammer y) := by
  rintro _ _ ⟨⟨programmer, chip, strategy⟩, w', w, hw⟩
  cases programmer with
  | none => exact ⟨rfl, .mk _ _ _ hw⟩
  | some o =>
    obtain ⟨r, _, _, hx, hy, ⟨handle, u', u, hu⟩⟩ := (h o.args).ends (.mk o.handle w' w hw)
    simp only [withProgrammer, hx, hy]
    exact ⟨trivial, .mk _ _ _ hu⟩

theorem withChip_traced {x : Chip → Work (ω × List Deed) μ α} {y : Chip → Work ω μ α}
    (h : ∀ c, Mirrors (Traced P log) (x c) (y c)) :
    Mirrors (Traced P log) (withChip x) (withChip y) := by
  rintro _ _ ⟨⟨programmer, chip, strategy⟩, w', w, hw⟩
  cases programmer with
  | none => exact ⟨rfl, .mk _ _ _ hw⟩
  | some o =>
    cases chip with
    | none => exact ⟨rfl, .mk _ _ _ hw⟩
    | some c => exact withProgrammer_traced (fun _ => h c) _ _ (.mk _ _ _ hw)

theorem modify_traced (f : Session μ → Session μ) : Mirrors (Traced P log)
    (Act.modify fun (s, w) => (f s, w) : Step (ω × List Deed) μ Unit)
    (Act.modify fun (s, w) => (f s, w)) := by
  apply Mirrors.modify
  rintro _ _ ⟨s, w', w, hw⟩
  exact .mk _ _ _ hw

theorem tell_traced (n : Notice) : Mirrors (Traced P log) (tell shop.traced n) (tell shop n) := by
  apply Mirrors.modify
  rintro _ _ ⟨s, w', w, hw⟩
  exact .mk _ _ _ (shop.files.traced_notes n w' w hw)

theorem shutdown_traced (shop : Workshop ω μ) (hP : P .closed) :
    Mirrors (Traced P log) (shutdown shop.traced) (shutdown shop) := by
  rintro _ _ ⟨⟨programmer, chip, strategy⟩, w', w, hw⟩
  cases programmer with
  | none => exact ⟨rfl, .mk _ _ _ hw⟩
  | some o =>
    obtain ⟨r, u', u, hx, hy, hu⟩ := ((shop.close o.handle).traced_mirrors hP).ends
      (shop.files.traced_notes (shutdownNotice o.driver) w' w hw)
    change shop.traced.close o.handle (shop.traced.note _ w') = _ at hx
    change shop.close o.handle (shop.note _ w) = _ at hy
    simp only [shutdown, hx, hy]
    cases r with
    | ok _ => exact ⟨rfl, .mk _ _ _ hu⟩
    | error e => exact ⟨rfl, .mk _ _ _ hu⟩

end Session

theorem Workshop.attempt_traced (args : String) (hP : ∀ name, P (.connected name))
    (d : Driver ω μ) :
    Mirrors (Noted P log) (shop.traced.attempt args d.traced) (shop.attempt args d) := by
  intro w' w hw
  obtain ⟨r, u', u, hx, hy, hu⟩ := ((d.connect args).traced_mirrors (hP d.name)).ends hw
  change d.traced.connect args w' = _ at hx
  simp only [attempt, hx, hy]
  cases r with
  | ok handle => exact ⟨rfl, hu⟩
  | error f => exact ⟨rfl, shop.files.traced_notes _ _ _ hu⟩

theorem Workshop.openProgrammer_traced (shop : Workshop ω μ) (args : String)
    (hP : ∀ name, P (.connected name)) :
    Mirrors (Noted P log) (shop.traced.openProgrammer args) (shop.openProgrammer args) := by
  unfold openProgrammer
  dsimp only
  split
  · refine .first_map (attempt_traced args hP) (fun found => ?_) shop.drivers
    cases found with
    | none => exact .fail _
    | some found => exact .bind (tell_mirrors shop.files.traced_notes _) fun _ => .pure _
  · have hfind : shop.traced.drivers.find? (fun d => d.name == Parameters.programmerName args) =
        (shop.drivers.find? fun d => d.name == Parameters.programmerName args).map
          Driver.traced :=
      List.find?_map
    unfold openNamed
    rw [hfind]
    cases shop.drivers.find? fun d => d.name == Parameters.programmerName args with
    | none => exact .fail _
    | some d =>
      refine .bind ((d.connect args).traced_mirrors (hP d.name)) fun handle => ?_
      exact .bind (tell_mirrors shop.files.traced_notes _) fun _ => .pure _

theorem Session.setProgrammer_traced (args : String) (hconnected : ∀ name, P (.connected name))
    (hclosed : P .closed) :
    Mirrors (Traced P log) (setProgrammer shop.traced args) (setProgrammer shop args) := by
  refine .bind (shutdown_traced shop hclosed) fun _ => ?_
  refine .bind (modify_traced fun s => { s with chip := none }) fun _ => ?_
  rintro _ _ ⟨s, w', w, hw⟩
  obtain ⟨r, u', u, hx, hy, hu⟩ := (shop.openProgrammer_traced args hconnected).ends hw
  simp only [hx, hy]
  cases r with
  | ok o => exact ⟨rfl, .mk _ _ _ hu⟩
  | error f => exact ⟨rfl, .mk _ _ _ hu⟩

/-- An operation asks for nothing but what it may ask for, however it ends. -/
theorem Operation.execute_traced (shop : Workshop ω μ) (op : Operation) :
    Mirrors (Traced op.May log) (op.execute shop.traced) (op.execute shop) := by
  cases op with
  | read path =>
    apply Session.withChip_traced
    intro c
    exact (shop.traced_parallel fun _ => trivial).readWork c fun data =>
      .within ((shop.files.write path data).traced_mirrors rfl)
  | write path =>
    refine .bind (.bind (.read ?_) fun x => Session.withChip_traced fun c => ?_) fun _ => .pure ()
    · rintro _ _ ⟨s, w', w, hw⟩
      rfl
    · exact (shop.traced_parallel fun _ => trivial).writeWork x c
        (.within ((shop.files.read path).traced_mirrors rfl))
  | verify path =>
    refine .bind (Session.withChip_traced fun c => ?_) fun _ => .pure ()
    exact (shop.traced_parallel fun _ => trivial).verifyWork c
      (.within ((shop.files.read path).traced_mirrors rfl))
  | setStrategy x =>
    exact .bind (Session.tell_traced _) fun _ => Session.modify_traced fun s => { s with strategy := x }
  | setChip name =>
    refine .bind (Session.withProgrammer_traced fun args => ?_) fun c =>
      Session.modify_traced fun s => { s with chip := some c }
    exact (shop.traced_parallel fun _ => trivial).selecting name args
  | setProgrammer args =>
    exact Session.setProgrammer_traced args (fun _ => trivial) trivial

namespace Queue

/-- The state in which an operation is executed: that it is executed has been told. -/
def begun (shop : Workshop ω μ) (op : Operation) (s : Session μ × ω) : Session μ × ω :=
  (s.1, shop.note (.debug fun _ => s!"Executing {op.text}") s.2)

/-- A state in which more has been told. -/
def told (shop : Workshop ω μ) (ns : List Notice) (s : Session μ × ω) : Session μ × ω :=
  (s.1, ns.foldl (fun w n => shop.note n w) s.2)

/-- The operations that are executed, the ones that are skipped, and what comes of them from a
state: each starts where the one before has ended, and only the last one may fail. -/
inductive Course (shop : Workshop ω μ) : List Operation → List Operation → Session μ × ω →
    Except (Halt Failure) Unit → Session μ × ω → Prop where
  | ended (s : Session μ × ω) : Course shop [] [] s (.ok ()) s
  | next {op : Operation} {executed skipped : List Operation} {s s' t : Session μ × ω}
      {r : Except (Halt Failure) Unit} (hop : op.execute shop (begun shop op s) = (.ok (), s'))
      (hrest : Course shop executed skipped s' r t) : Course shop (op :: executed) skipped s r t
  | failed {op : Operation} {skipped : List Operation} {s t : Session μ × ω} {e : Halt Failure}
      (hop : op.execute shop (begun shop op s) = (.error e, t)) :
      Course shop [op] skipped s (.error e) (told shop (failureNotices op skipped e) t)

variable {executed skipped : List Operation} {s t : Session μ × ω}
  {r : Except (Halt Failure) Unit}

theorem exists_course (shop : Workshop ω μ) (ops : List Operation) (s : Session μ × ω) :
    ∃ executed skipped, ops = executed ++ skipped ∧
      Course shop executed skipped s (runAll shop ops s).1 (runAll shop ops s).2 := by
  induction ops generalizing s with
  | nil => exact ⟨[], [], rfl, .ended s⟩
  | cons op rest ih =>
    cases hop : op.execute shop (begun shop op s) with
    | mk r s' =>
      cases r with
      | ok _ =>
        obtain ⟨executed, skipped, hrest, hcourse⟩ := ih s'
        have hrun : runAll shop (op :: rest) s = runAll shop rest s' := by
          simp only [begun] at hop
          simp only [runAll, hop]
        rw [hrun, hrest]
        rw [hrest] at hcourse
        exact ⟨op :: executed, skipped, rfl, .next hop hcourse⟩
      | error e =>
        have hrun : runAll shop (op :: rest) s =
            (.error e, told shop (failureNotices op rest e) s') := by
          simp only [begun] at hop
          simp only [runAll, hop, told]
        rw [hrun]
        exact ⟨[op], rest, rfl, .failed hop⟩

theorem Course.runAll_eq (h : Course shop executed skipped s r t) :
    runAll shop (executed ++ skipped) s = (r, t) := by
  induction h with
  | ended s => rfl
  | next hop _ ih =>
    simp only [begun] at hop
    simp only [List.cons_append, runAll, hop, ih]
  | failed hop =>
    simp only [begun] at hop
    simp only [List.cons_append, List.nil_append, runAll, hop, told]

theorem Course.skipped_eq_nil (h : Course shop executed skipped s (.ok ()) t) : skipped = [] := by
  generalize hr : Except.ok () = r at h
  induction h with
  | ended s => rfl
  | next _ _ ih => exact ih hr
  | failed _ => cases hr

theorem told_traced (shop : Workshop ω μ) (ns : List Notice) (s : Session μ × ω)
    (log : List Deed) : told shop.traced ns (s.1, (s.2, log)) =
      ((told shop ns s).1, ((told shop ns s).2, log)) := by
  have hnotes : shop.files.traced.Notes (fun w' w => w' = (w, log)) shop.files := by
    rintro n _ w rfl
    rfl
  exact congrArg (Prod.mk s.1) (hnotes.all ns rfl)

/-- The workshop that is traced sees the same course. Its record is made of one part for each of the
operations that are executed. -/
theorem Course.traced (h : Course shop executed skipped s r t) (log : List Deed) :
    ∃ parts, List.Forall₂ (fun op ds => ∀ d ∈ ds, Operation.May op d) executed parts ∧
      Course shop.traced executed skipped (s.1, (s.2, log)) r
        (t.1, (t.2, log ++ parts.flatten)) := by
  induction h generalizing log with
  | ended s =>
    refine ⟨[], .nil, ?_⟩
    rw [List.flatten_nil, List.append_nil]
    exact .ended _
  | @next op executed skipped s s' t r hop _ ih =>
    obtain ⟨_, _, _, hx, hy, ⟨_, _, _, ⟨_, ds, hds⟩⟩⟩ := (op.execute_traced shop).ends
      (.mk s.1 _ _ (.refl op.May log (begun shop op s).2))
    cases hy.symm.trans hop
    obtain ⟨parts, hparts, hcourse⟩ := ih (log ++ ds)
    refine ⟨ds :: parts, .cons hds hparts, ?_⟩
    rw [List.append_assoc, ← List.flatten_cons] at hcourse
    exact .next hx hcourse
  | @failed op skipped s t e hop =>
    obtain ⟨_, _, _, hx, hy, ⟨_, _, _, ⟨_, ds, hds⟩⟩⟩ := (op.execute_traced shop).ends
      (.mk s.1 _ _ (.refl op.May log (begun shop op s).2))
    cases hy.symm.trans hop
    refine ⟨[ds], .cons hds .nil, ?_⟩
    rw [List.flatten_cons, List.flatten_nil, List.append_nil, ← told_traced]
    exact .failed hx

theorem run_eq (hcourse : Course shop executed skipped s r t) {q : Queue}
    (hq : q.operations = executed ++ skipped) : q.run shop s =
      (r.bind fun _ => (Session.shutdown shop t).1, (Session.shutdown shop t).2) := by
  simp only [run, hq, hcourse.runAll_eq]

/-- What a run is asked for on a command line, at places that increase along it, are the selections
and then the files in their order. It executes these one after the other up to the first that
fails, each once. Nothing is read, written or executed for the others. The programmer is shut down
in any case, and a failed operation counts more than a failed shutdown. -/
theorem runs_in_order (shop : Workshop ω μ) :
    (∀ (gs : List (Nat × CommandLine.Given)) (o : CommandLine.Options) (x : Strategy),
      (gs.map Prod.fst).Pairwise (· < ·) → CommandLine.Options.ofPlaced? gs = some o →
        (o.queue x).operations =
          .setProgrammer o.programmerArgs :: .setChip o.chipName :: .setStrategy x ::
            gs.filterMap fun g => g.2.operation?) ∧
    ∀ (q : Queue) (s : Session μ × ω), ∃ executed skipped r t,
      q.operations = executed ++ skipped ∧ Course shop executed skipped s r t ∧
      (r = .ok () → skipped = []) ∧
      q.run shop s = (r.bind fun _ => (Session.shutdown shop t).1, (Session.shutdown shop t).2) ∧
      (q.run shop s).2.1.programmer = none ∧
      ∀ log, ∃ parts last,
        List.Forall₂ (fun op ds => ∀ d ∈ ds, Operation.May op d) executed parts ∧
        (∀ d ∈ last, d = .closed) ∧
        q.run shop.traced (s.1, (s.2, log)) = ((q.run shop s).1,
          ((q.run shop s).2.1, ((q.run shop s).2.2, log ++ parts.flatten ++ last))) := by
  refine ⟨fun gs o x hplaces ho => ?_, fun q s => ?_⟩
  · rw [CommandLine.Options.operations_queue, CommandLine.Options.files_of_ofPlaced? ho,
      CommandLine.FileOptions.operations_collect hplaces]
  · obtain ⟨executed, skipped, hq, hcourse⟩ := exists_course shop q.operations s
    have hrun := run_eq hcourse hq
    refine ⟨executed, skipped, _, _, hq, hcourse, fun hr => ?_, hrun,
      Session.run_programmer shop q s, fun log => ?_⟩
    · rw [hr] at hcourse
      exact hcourse.skipped_eq_nil
    · obtain ⟨parts, hparts, htraced⟩ := hcourse.traced log
      -- the shutdown adds the rest of the record
      obtain ⟨r, _, _, hx, hy, ⟨_, _, _, ⟨_, last, hlast⟩⟩⟩ :=
        (Session.shutdown_traced (P := (· = .closed)) shop rfl).ends
          (.mk _ _ _ (.refl _ (log ++ parts.flatten) (runAll shop q.operations s).2.2))
      refine ⟨parts, last, hparts, hlast, ?_⟩
      change Session.shutdown shop (runAll shop q.operations s).2 = _ at hy
      rw [run_eq htraced hq, hrun, hx, hy]

open CommandLine in
/-- Files that are given as a write, a read and a verification are worked on in this order. -/
theorem runs_in_order_interleaved :
    let gs : List (Nat × Given) := [(1, .field .write "new"), (3, .field .read "old"),
      (5, .field .chip "sample"), (7, .field .verify "new")]
    ∃ o, Options.ofPlaced? gs = some o ∧ (o.queue .default).operations =
      [.setProgrammer automatic, .setChip "sample", .setStrategy .default, .write "new",
        .read "old", .verify "new"] := by
  intro gs
  refine ⟨{ chip := some "sample", files := .collect gs }, rfl, ?_⟩
  exact (runs_in_order Workshop.sample).1 gs _ .default (by decide) rfl

end Queue
end NorFlash
