import NorFlash.Proofs.Parallel
import NorFlash.Proofs.Ranges

namespace NorFlash

/-- A command and how it was answered. -/
structure Exchange where
  command : Command
  answer : Except Stop Bytes

namespace Exchange

/-- The command was carried out. -/
def Done (x : Exchange) : Prop := ∃ reply, x.answer = .ok reply

/-- The receive buffer as it stands afterwards. -/
def received (x : Exchange) : Bytes :=
  match x.answer with
  | .ok reply => Bytes.overlayFront x.command.buffer reply
  | .error _ => x.command.buffer

/-- What a look at the status register finds. -/
def status (x : Exchange) : UInt8 := x.received.byteAt 0

end Exchange

variable {σ α β τ : Type}

/-- The programmer with a record of its exchanges, the latest last. -/
def Programmer.recorded (p : Programmer σ) : Programmer (σ × List Exchange) where
  maxRead s := p.maxRead s.1
  maxWrite s := p.maxWrite s.1
  execute c s :=
    match p.execute c s.1 with
    | (answer, s') => (answer, (s', s.2 ++ [⟨c, answer⟩]))
  delay n s := (p.delay n s.1, s.2)
  report e s := (p.report e s.1, s.2)
  note n s := (p.note n s.1, s.2)
  patience := p.patience

/-- Whatever was recorded before, the step adds exchanges of which, with its result, `post` holds. -/
def Sends (x : Act (σ × List Exchange) Stop α) (post : List Exchange → Except Stop α → Prop) :
    Prop :=
  ∀ s log, ∃ sent, (x (s, log)).2.2 = log ++ sent ∧ post sent (x (s, log)).1

/-- What is sent while the step runs. -/
def commandsOf (x : Act (σ × List Exchange) Stop α) (s : σ) : List Command :=
  (x (s, [])).2.2.map Exchange.command

/-- The step sends `c` and nothing else; what it gives is read off the exchange. -/
def Once (c : Command) (g : Exchange → α) (sent : List Exchange) (r : Except Stop α) : Prop :=
  ∃ y : Exchange, sent = [y] ∧ y.command = c ∧ ∀ a, r = .ok a → y.Done ∧ a = g y

namespace Sends

variable {x : Act (σ × List Exchange) Stop α} {f : α → Act (σ × List Exchange) Stop β}
  {first : List Exchange → Except Stop α → Prop} {post : List Exchange → Except Stop β → Prop}

theorem mono {q : List Exchange → Except Stop α → Prop} (hx : Sends x first)
    (h : ∀ sent r, first sent r → q sent r) : Sends x q :=
  Act.Adds.mono hx h

/-- A step after a step adds its exchanges to those of the first, if the first ends well. -/
theorem bind (hx : Sends x first)
    (hf : ∀ sent a, first sent (.ok a) → Sends (f a) fun more r => post (sent ++ more) r)
    (he : ∀ sent e, first sent (.error e) → post sent (.error e)) : Sends (x >>= f) post :=
  Act.Adds.bind hx hf he

/-- A step that leaves the record alone. -/
theorem silent {q : Except Stop α → Prop} (h : ∀ s, (x s).2.2 = s.2 ∧ q (x s).1) :
    Sends x fun sent r => sent = [] ∧ q r :=
  Act.Adds.silent h

/-- After a single exchange only what follows it is left to show. -/
theorem once_bind {c : Command} {g : Exchange → α} (hx : Sends x (Once c g))
    (hf : ∀ y : Exchange, y.command = c → y.Done → Sends (f (g y)) fun more r => post (y :: more) r)
    (he : ∀ (y : Exchange) e, y.command = c → post [y] (.error e)) : Sends (x >>= f) post := by
  refine hx.bind ?_ ?_
  · rintro sent a ⟨y, rfl, hc, hok⟩
    obtain ⟨hdone, rfl⟩ := hok a rfl
    exact hf y hc hdone
  · rintro sent e ⟨y, rfl, hc, _⟩
    exact he y e hc

theorem once_map {c : Command} {g : Exchange → α} (hx : Sends x (Once c g)) (h : α → β) :
    Sends (x >>= fun a => pure (h a)) (Once c fun y => h (g y)) := by
  refine hx.once_bind ?_ ?_
  · intro y hc hdone s log
    refine ⟨[], (List.append_nil log).symm, y, rfl, hc, fun b hb => ?_⟩
    cases hb
    exact ⟨hdone, rfl⟩
  · intro y e hc
    exact ⟨y, rfl, hc, nofun⟩

theorem send (p : Programmer σ) (c : Command) :
    Sends (p.recorded.send c) (Once c Exchange.received) := by
  intro s log
  cases hx : p.execute c s with
  | mk answer s' =>
    refine ⟨[⟨c, answer⟩], ?_, ⟨c, answer⟩, rfl, rfl, ?_⟩
    · simp only [Programmer.send, Programmer.recorded, hx]
      cases answer <;> rfl
    · intro a ha
      simp only [Programmer.send, Programmer.recorded, hx] at ha
      cases answer with
      | ok reply => exact ⟨⟨reply, rfl⟩, (Except.ok.inj ha).symm⟩
      | error e => cases ha

theorem onError (p : Programmer σ) {g : Error → Notice} (hx : Sends x first) :
    Sends (p.recorded.onError x g) first :=
  Act.Adds.onError (fun _ _ => rfl) hx

/-- A failure may be called another one. -/
theorem mapError {u : Stop → Stop} (hx : Sends x first)
    (he : ∀ sent e, first sent (.error e) → first sent (.error (u e))) :
    Sends (x.mapError u) first := by
  intro s log
  obtain ⟨sent, hlog, hpost⟩ := hx s log
  unfold Act.mapError
  cases hrun : x (s, log) with
  | mk result state =>
    rw [hrun] at hlog hpost
    cases result with
    | ok a => exact ⟨sent, hlog, hpost⟩
    | error e => exact ⟨sent, hlog, he sent e hpost⟩

theorem writeEnable (p : Programmer σ) :
    Sends p.recorded.writeEnable (Once (.bare Opcode.writeEnable) fun _ => ()) :=
  (send p _).once_map fun _ => ()

theorem readStatus (p : Programmer σ) :
    Sends p.recorded.readStatus
      (Once (.readRegister Opcode.readStatus (Bytes.filled 1 0)) Exchange.status) :=
  (send p _).once_map (Bytes.byteAt · 0)

theorem checkLatch (p : Programmer σ) :
    Sends p.recorded.checkLatch
      (Once (.readRegister Opcode.readStatus (Bytes.filled 1 0))
        fun y => y.status &&& Opcode.latchBit != 0) :=
  (readStatus p).once_map (· &&& Opcode.latchBit != 0)

theorem readInto (p : Programmer σ) {addr : Nat} {buffer : Bytes} :
    Sends (p.recorded.readInto addr buffer)
      (Once (.readAt Opcode.readData addr buffer) Exchange.received) :=
  .onError p (.send p _)

theorem sendErase (p : Programmer σ) {f : EraseFunction} {addr : Nat} :
    Sends (p.recorded.sendErase f addr) (Once (Programmer.eraseCommand f addr) fun _ => ()) := by
  refine .mapError (once_map (.onError p (.send p _)) fun _ => ()) ?_
  rintro sent e ⟨y, hsent, hc, _⟩
  exact ⟨y, hsent, hc, nofun⟩

end Sends

/-- What may be asked of a record, of every one and of those that a step leaves which ends well,
such that it holds of two steps in a row if it holds of each. -/
structure Law where
  holds : List Exchange → Prop
  complete : List Exchange → Prop
  holds_nil : holds []
  complete_nil : complete []
  holds_append {t u : List Exchange} : holds t → complete t → holds u → holds (t ++ u)
  complete_append {t u : List Exchange} : complete t → complete u → complete (t ++ u)

/-- Whatever the step sends keeps the law, and `q` holds of its value. -/
def Law.Obeys (law : Law) (x : Act (σ × List Exchange) Stop α) (q : α → Prop) : Prop :=
  Sends x fun sent r => law.holds sent ∧ ∀ a, r = .ok a → law.complete sent ∧ q a

namespace Law

variable {law : Law} {x : Act (σ × List Exchange) Stop α}
  {f : α → Act (σ × List Exchange) Stop β} {q : α → Prop} {r : β → Prop}

/-- What comes after a record that keeps the law. -/
theorem Obeys.after {t : List Exchange} (hx : law.Obeys x q) (ht : law.holds t)
    (hc : law.complete t) :
    Sends x fun sent r =>
      law.holds (t ++ sent) ∧ ∀ a, r = .ok a → law.complete (t ++ sent) ∧ q a := by
  refine Sends.mono hx fun sent r hpost => ?_
  refine ⟨law.holds_append ht hc hpost.1, fun a ha => ?_⟩
  exact ⟨law.complete_append hc (hpost.2 a ha).1, (hpost.2 a ha).2⟩

theorem Obeys.bind (hx : law.Obeys x q) (hf : ∀ a, q a → law.Obeys (f a) r) :
    law.Obeys (x >>= f) r := by
  refine Sends.bind hx ?_ ?_
  · intro sent a hfirst
    obtain ⟨hcomplete, hq⟩ := hfirst.2 a rfl
    exact (hf a hq).after hfirst.1 hcomplete
  · intro sent e hfirst
    exact ⟨hfirst.1, nofun⟩

/-- What sends nothing keeps every law. -/
theorem Obeys.silent (h : ∀ s, (x s).2.2 = s.2 ∧ ∀ a, (x s).1 = .ok a → q a) :
    law.Obeys x q := by
  refine Sends.mono (Sends.silent (q := fun r => ∀ a, r = .ok a → q a) h) ?_
  rintro sent result ⟨rfl, hq⟩
  exact ⟨law.holds_nil, fun a ha => ⟨law.complete_nil, hq a ha⟩⟩

theorem Obeys.pure {a : α} (h : q a) : law.Obeys (σ := σ) (Pure.pure a) q :=
  .silent fun _ => ⟨rfl, fun b hb => by cases hb; exact h⟩

theorem Obeys.fail {e : Stop} : law.Obeys (σ := σ) (Act.fail e) q :=
  .silent fun _ => ⟨rfl, nofun⟩

variable (p : Programmer σ)

theorem Obeys.progress (e : Progress) : law.Obeys (p.recorded.progress e) fun _ => True :=
  .silent fun _ => ⟨rfl, fun _ _ => trivial⟩

theorem Obeys.tell (n : Notice) : law.Obeys (p.recorded.tell n) fun _ => True :=
  .silent fun _ => ⟨rfl, fun _ _ => trivial⟩

theorem Obeys.read (g : σ × List Exchange → α) : law.Obeys (Act.read g) fun _ => True :=
  .silent fun _ => ⟨rfl, fun _ _ => trivial⟩

theorem Obeys.onError {g : Error → Notice} (hx : law.Obeys x q) :
    law.Obeys (p.recorded.onError x g) q :=
  Sends.onError p hx

theorem Obeys.mapError {u : Stop → Stop} (hx : law.Obeys x q) : law.Obeys (x.mapError u) q :=
  Sends.mapError hx fun _ _ h => ⟨h.1, nofun⟩

/-- To obey a law is kept by sequences, and what sends nothing obeys. -/
def judgment (law : Law) (p : Programmer σ) : Judgment p.recorded p.recorded where
  holds x _ post := law.Obeys x post
  pure := .pure
  fail _ := .fail
  bind := .bind
  onError := .onError p
  mapError _ := .mapError
  tell := .tell p
  progress := .progress p
  maxRead := .read _
  maxWrite := .read _

section Each

variable {p} {P : Command → Prop}

/-- The law that `P` holds of each command. -/
def each (P : Command → Prop) : Law where
  holds sent := ∀ y ∈ sent, P y.command
  complete _ := True
  holds_nil := by simp
  complete_nil := trivial
  holds_append ht _ hu := by
    intro y hy
    rcases List.mem_append.mp hy with hy | hy
    · exact ht y hy
    · exact hu y hy
  complete_append _ _ := trivial

theorem Obeys.once {command : Command} {g : Exchange → α} (hx : Sends x (Once command g))
    (hP : P command) : (each P).Obeys x fun _ => True := by
  refine Sends.mono hx ?_
  rintro sent r ⟨y, rfl, rfl, _⟩
  exact ⟨by simpa [each] using hP, fun _ _ => ⟨trivial, trivial⟩⟩

theorem Obeys.commandsOf (hx : (each P).Obeys x q) (s : σ) :
    ∀ command ∈ commandsOf x s, P command := by
  obtain ⟨sent, hlog, hsent, _⟩ := hx s []
  intro command hcommand
  obtain ⟨y, hy, rfl⟩ := List.mem_map.mp hcommand
  rw [hlog] at hy
  exact hsent y hy

variable (hstatus : P (.readRegister Opcode.readStatus (Bytes.filled 1 0)))
  (henable : P (.bare Opcode.writeEnable))

theorem obeys_send (p : Programmer σ) : ∀ command, P command →
    (each P).Obeys (p.recorded.send command) fun _ => True :=
  fun _ h => .once (.send p _) h

include hstatus in
theorem Obeys.pollReady (interval polls : Nat) :
    (each P).Obeys (p.recorded.pollReady interval polls) fun _ => True := by
  induction polls with
  | zero => exact .fail
  | succ polls ih =>
    rw [Programmer.pollReady_succ]
    refine .bind (.once (.readStatus p) hstatus) fun status _ => ?_
    split
    · exact .pure trivial
    · exact .bind (.silent fun s => ⟨rfl, fun _ _ => trivial⟩) fun _ _ => ih

include hstatus henable in
theorem Obeys.programPage {addr : Nat} {piece : Bytes}
    (h : P (.writeAt Opcode.pageProgram addr piece)) :
    (each P).Obeys (p.recorded.programPage addr piece) fun _ => True :=
  ((each P).judgment p).programPage (obeys_send p) hstatus henable
    (fun _ => .pollReady hstatus _ _) h

include hstatus henable in
theorem Obeys.eraseBlock {f : EraseFunction} {addr len chipSize : Nat}
    (h : P (Programmer.eraseCommand f addr)) :
    (each P).Obeys (p.recorded.eraseBlock f addr len chipSize) fun _ => True :=
  ((each P).judgment p).eraseBlock (obeys_send p) hstatus henable
    (fun _ => .pollReady hstatus _ _) h

end Each

end Law
end NorFlash
