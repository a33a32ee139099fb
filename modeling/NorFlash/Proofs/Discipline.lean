import NorFlash.Proofs.Recorded
import NorFlash.Proofs.Writing

namespace NorFlash

namespace EraseFunction

theorem opcode_injective : Function.Injective opcode := by
  intro f g h
  have hf := ofOpcode?_opcode f
  rw [h, ofOpcode?_opcode g] at hf
  exact (Option.some.inj hf).symm

/-- No instruction of the common set is an erase. -/
theorem opcode_ne_common (f : EraseFunction) :
    f.opcode ≠ Opcode.readStatus ∧ f.opcode ≠ Opcode.writeEnable ∧ f.opcode ≠ Opcode.readData ∧
      f.opcode ≠ Opcode.pageProgram := by
  cases f <;> decide

end EraseFunction

namespace Command

/-- A program or an erase is asked for. -/
def Changes (c : Command) : Prop :=
  c.opcode = Opcode.pageProgram ∨ ∃ f : EraseFunction, c.opcode = f.opcode

/-- A program is asked for, or an erase that the chip refuses without its latch. -/
def NeedsLatch (c : Command) : Prop :=
  c.opcode = Opcode.pageProgram ∨
    ∃ f : EraseFunction, f.needsWriteEnable = true ∧ c.opcode = f.opcode

variable {c : Command}

theorem NeedsLatch.changes (h : c.NeedsLatch) : c.Changes := by
  rcases h with h | ⟨f, _, h⟩
  · exact .inl h
  · exact .inr ⟨f, h⟩

theorem not_changes (hp : c.opcode ≠ Opcode.pageProgram)
    (he : ∀ f : EraseFunction, f.opcode ≠ c.opcode) : ¬c.Changes := by
  rintro (h | ⟨f, hf⟩)
  · exact hp h
  · exact he f hf.symm

theorem not_changes_readStatus (h : c.opcode = Opcode.readStatus) : ¬c.Changes :=
  not_changes (by rw [h]; decide) fun f => by rw [h]; exact f.opcode_ne_common.1

theorem not_changes_writeEnable (h : c.opcode = Opcode.writeEnable) : ¬c.Changes :=
  not_changes (by rw [h]; decide) fun f => by rw [h]; exact f.opcode_ne_common.2.1

theorem not_changes_readData (h : c.opcode = Opcode.readData) : ¬c.Changes :=
  not_changes (by rw [h]; decide) fun f => by rw [h]; exact f.opcode_ne_common.2.2.1

end Command

namespace Exchange

/-- The status register is asked for. -/
def Looks (x : Exchange) : Prop := x.command.opcode = Opcode.readStatus

/-- The chip is seen ready. -/
def Ready (x : Exchange) : Prop := x.Looks ∧ x.Done ∧ x.status &&& Opcode.busyBit = 0

/-- The write enable latch is seen set. -/
def Latched (x : Exchange) : Prop := x.Looks ∧ x.Done ∧ x.status &&& Opcode.latchBit ≠ 0

/-- A write enable was carried out. -/
def Enables (x : Exchange) : Prop := x.command.opcode = Opcode.writeEnable ∧ x.Done

variable {x : Exchange} {buffer : Bytes}

theorem looks_of_command (h : x.command = .readRegister Opcode.readStatus buffer) : x.Looks := by
  rw [Looks, h]
  rfl

theorem Looks.not_changes (h : x.Looks) : ¬x.command.Changes := Command.not_changes_readStatus h

end Exchange

/-- Until the chip is seen ready nothing but the status register is asked for. -/
def Waits (after : List Exchange) : Prop :=
  ∀ polls y rest, after = polls ++ y :: rest → (∀ z ∈ polls, ¬z.Ready) → y.Looks

/-- Nothing is sent after a command that failed. -/
def Stops (sent : List Exchange) : Prop :=
  ∀ before x after, sent = before ++ x :: after → ¬x.Done → after = []

/-- The rules for what is sent, at every point of it. A whole chip is erased only where `whole`
allows it. -/
structure Disciplined (whole : EraseFunction → Prop) (sent : List Exchange) : Prop where
  enabled : ∀ before x after, sent = before ++ x :: after → x.command.NeedsLatch →
    ∃ earlier w l, before = earlier ++ [w, l] ∧ w.Enables ∧ l.Latched
  waited : ∀ before x after, sent = before ++ x :: after → x.command.Changes → x.Done → Waits after
  stops : Stops sent
  chip : ∀ x ∈ sent, ∀ f : EraseFunction, x.command.opcode = f.opcode → f.erasesChip = true →
    x.command.address = none ∧ whole f

/-- All of it was carried out, and each program or erase was seen through to its end. -/
structure Settled (sent : List Exchange) : Prop where
  done : ∀ x ∈ sent, x.Done
  ready : ∀ before x after, sent = before ++ x :: after → x.command.Changes → ∃ y ∈ after, y.Ready

variable {whole : EraseFunction → Prop} {t u before after lead polls : List Exchange}
  {x y : Exchange}

/-- A place in two lists in a row is a place in one of them. -/
theorem split_append (h : t ++ u = before ++ x :: after) :
    (∃ rest, t = before ++ x :: rest ∧ after = rest ++ u) ∨
      ∃ rest, before = t ++ rest ∧ u = rest ++ x :: after := by
  rcases List.append_eq_append_iff.mp h with ⟨rest, hbefore, hu⟩ | ⟨rest, ht, hu⟩
  · exact .inr ⟨rest, hbefore, hu⟩
  · cases rest with
    | nil =>
      rw [List.append_nil] at ht
      exact .inr ⟨[], by rw [ht, List.append_nil], hu.symm⟩
    | cons z rest =>
      rw [List.cons_append, List.cons.injEq] at hu
      obtain ⟨rfl, rfl⟩ := hu
      exact .inl ⟨rest, ht, rfl⟩

theorem Stops.append (ht : ∀ x ∈ t, x.Done) (hu : Stops u) : Stops (t ++ u) := by
  intro before x after h hx
  rcases split_append h with ⟨rest, rfl, _⟩ | ⟨rest, _, rfl⟩
  · exact absurd (ht x (by simp)) hx
  · exact hu rest x after rfl hx

theorem Waits.append (ht : Waits t) (hready : ∃ y ∈ t, y.Ready) : Waits (t ++ u) := by
  intro polls y rest h hbusy
  rcases split_append h with ⟨rest', rfl, _⟩ | ⟨rest', rfl, _⟩
  · exact ht polls y rest' rfl hbusy
  · obtain ⟨z, hz, hr⟩ := hready
    exact absurd hr (hbusy z (List.mem_append_left _ hz))

/-- The rules hold of two records in a row if all in the first was settled. -/
theorem Disciplined.append (ht : Disciplined whole t) (hs : Settled t) (hu : Disciplined whole u) :
    Disciplined whole (t ++ u) := by
  refine ⟨?_, ?_, .append hs.done hu.stops, ?_⟩
  · intro before x after h hx
    rcases split_append h with ⟨rest, rfl, _⟩ | ⟨rest, rfl, rfl⟩
    · exact ht.enabled before x rest rfl hx
    · obtain ⟨earlier, w, l, rfl, hw, hl⟩ := hu.enabled rest x after rfl hx
      exact ⟨t ++ earlier, w, l, (List.append_assoc ..).symm, hw, hl⟩
  · intro before x after h hx hdone
    rcases split_append h with ⟨rest, rfl, rfl⟩ | ⟨rest, rfl, rfl⟩
    · exact (ht.waited before x rest rfl hx hdone).append (hs.ready before x rest rfl hx)
    · exact hu.waited rest x after rfl hx hdone
  · intro x hx
    rcases List.mem_append.mp hx with hx | hx
    · exact ht.chip x hx
    · exact hu.chip x hx

theorem Settled.append (ht : Settled t) (hu : Settled u) : Settled (t ++ u) := by
  refine ⟨?_, ?_⟩
  · intro x hx
    rcases List.mem_append.mp hx with hx | hx
    · exact ht.done x hx
    · exact hu.done x hx
  · intro before x after h hx
    rcases split_append h with ⟨rest, rfl, rfl⟩ | ⟨rest, rfl, rfl⟩
    · obtain ⟨y, hy, hr⟩ := ht.ready before x rest rfl hx
      exact ⟨y, List.mem_append_left u hy, hr⟩
    · exact hu.ready rest x after rfl hx

/-- What changes nothing has only to stop at a failure. -/
theorem Disciplined.of_not_changes (hc : ∀ x ∈ t, ¬x.command.Changes) (hs : Stops t) :
    Disciplined whole t := by
  refine ⟨?_, ?_, hs, ?_⟩
  · intro before x after h hx
    exact absurd hx.changes (hc x (by simp [h]))
  · intro before x after h hx
    exact absurd hx (hc x (by simp [h]))
  · intro x hx f hf
    exact absurd (.inr ⟨f, hf⟩) (hc x hx)

/-- All of it was carried out, and nothing changed by it. -/
structure Quiet (t : List Exchange) : Prop where
  done : ∀ x ∈ t, x.Done
  changes_none : ∀ x ∈ t, ¬x.command.Changes

theorem Quiet.nil : Quiet [] := ⟨by simp, by simp⟩

theorem Quiet.settled (h : Quiet t) : Settled t := by
  refine ⟨h.done, ?_⟩
  intro before x after hplace hx
  exact absurd hx (h.changes_none x (by simp [hplace]))

theorem Quiet.stops (h : Quiet t) : Stops t := by
  intro before x after hplace hx
  exact absurd (h.done x (by simp [hplace])) hx

theorem Quiet.disciplined (h : Quiet t) : Disciplined whole t :=
  .of_not_changes h.changes_none h.stops

/-- What prepares the command `c`; if `c` needs the latch, that the latch was set and seen. -/
structure Prepares (c : Command) (lead : List Exchange) : Prop extends Quiet lead where
  latched : c.NeedsLatch → ∃ w l, lead = [w, l] ∧ w.Enables ∧ l.Latched

/-- A command that is prepared, sent and waited for. -/
structure Sentence (lead : List Exchange) (x : Exchange) (polls : List Exchange) : Prop where
  prepared : Prepares x.command lead
  looks : ∀ y ∈ polls, y.Looks
  stops : Stops (x :: polls)

theorem Stops.single : Stops [x] := by
  intro before y after h hy
  rcases List.cons_eq_append_iff.mp h with ⟨_, h⟩ | ⟨rest, _, h⟩
  · exact (List.cons.inj h).2
  · simp at h

theorem Stops.cons (hx : x.Done) (ht : Stops t) : Stops (x :: t) :=
  .append (t := [x]) (by simpa using hx) ht

namespace Sentence

/-- Only the command itself changes anything. -/
theorem place (hs : Sentence lead x polls) (h : lead ++ x :: polls = before ++ y :: after)
    (hy : y.command.Changes) : before = lead ∧ y = x ∧ after = polls := by
  rcases split_append h with ⟨rest, rfl, _⟩ | ⟨rest, rfl, hrest⟩
  · exact absurd hy (hs.prepared.changes_none y (by simp))
  · cases rest with
    | nil =>
      obtain ⟨rfl, rfl⟩ := List.cons.inj hrest
      exact ⟨List.append_nil lead, rfl, rfl⟩
    | cons z rest =>
      obtain ⟨_, rfl⟩ := List.cons.inj hrest
      exact absurd hy ((hs.looks y (by simp)).not_changes)

theorem disciplined (hs : Sentence lead x polls)
    (hc : ∀ f : EraseFunction, x.command.opcode = f.opcode → f.erasesChip = true →
      x.command.address = none ∧ whole f) : Disciplined whole (lead ++ x :: polls) := by
  refine ⟨?_, ?_, .append hs.prepared.done hs.stops, ?_⟩
  · intro before y after h hy
    obtain ⟨rfl, rfl, rfl⟩ := hs.place h hy.changes
    obtain ⟨w, l, hlead, hw, hl⟩ := hs.prepared.latched hy
    exact ⟨[], w, l, hlead, hw, hl⟩
  · intro before y after h hy _ polls' z rest hz _
    obtain ⟨rfl, rfl, rfl⟩ := hs.place h hy
    exact hs.looks z (by simp [hz])
  · intro y hy f hf
    obtain ⟨before, after, h⟩ := List.append_of_mem hy
    obtain ⟨_, rfl, _⟩ := hs.place h (.inr ⟨f, hf⟩)
    exact hc f hf

theorem settled (hs : Sentence lead x polls) (hx : x.Done) (hd : ∀ y ∈ polls, y.Done)
    (hr : ∃ y ∈ polls, y.Ready) : Settled (lead ++ x :: polls) := by
  refine ⟨?_, ?_⟩
  · intro y hy
    rcases List.mem_append.mp hy with hy | hy
    · exact hs.prepared.done y hy
    · rcases List.mem_cons.mp hy with rfl | hy
      · exact hx
      · exact hd y hy
  · intro before y after h hy
    obtain ⟨_, _, rfl⟩ := hs.place h hy
    exact hr

end Sentence

/-- The law of write enable and waiting. -/
def Law.discipline (whole : EraseFunction → Prop) : Law where
  holds := Disciplined whole
  complete := Settled
  holds_nil := Quiet.nil.disciplined
  complete_nil := Quiet.nil.settled
  holds_append := .append
  complete_append := .append

variable {σ α : Type} (p : Programmer σ)

namespace Sends

/-- What follows once the latch was asked for and looked at; a failure before that changes
nothing. -/
theorem latch_bind {f : Bool → Act (σ × List Exchange) Stop α}
    {post : List Exchange → Except Stop α → Prop}
    (hf : ∀ lead latch, Quiet lead → (latch = true → ∀ c, Prepares c lead) →
      Sends (f latch) fun more r => post (lead ++ more) r)
    (he : ∀ t e, (∀ y ∈ t, ¬y.command.Changes) → Stops t → post t (.error e)) :
    Sends (p.recorded.writeEnable >>= fun _ => p.recorded.checkLatch >>= f) post := by
  have henable : ¬(Command.bare Opcode.writeEnable).Changes := Command.not_changes_writeEnable rfl
  refine (writeEnable p).once_bind ?_ ?_
  · intro w hw hwd
    refine (checkLatch p).once_bind ?_ ?_
    · intro l hl hld
      have hlook := Exchange.looks_of_command hl
      have hquiet : Quiet [w, l] := ⟨by simp [hwd, hld], by simp [hw, henable, hlook.not_changes]⟩
      refine hf [w, l] _ hquiet fun hset c => ⟨hquiet, fun _ => ⟨w, l, rfl, ?_, ?_⟩⟩
      · exact ⟨by rw [hw]; rfl, hwd⟩
      · exact ⟨hlook, hld, by simpa using hset⟩
    · intro l e hl
      have hlook := Exchange.looks_of_command hl
      exact he [w, l] e (by simp [hw, henable, hlook.not_changes]) (.cons hwd .single)
  · intro w e hw
    exact he [w] e (by simp [hw, henable]) .single

/-- A wait looks at the status register, and ends well when the chip is seen ready. -/
theorem pollReady (interval polls : Nat) :
    Sends (p.recorded.pollReady interval polls) fun sent r =>
      (∀ y ∈ sent, y.Looks) ∧ Stops sent ∧
        ∀ a, r = .ok a → (∀ y ∈ sent, y.Done) ∧ ∃ y ∈ sent, y.Ready := by
  induction polls with
  | zero =>
    intro s log
    exact ⟨[], (List.append_nil log).symm, by simp, by simp [Stops], nofun⟩
  | succ polls ih =>
    rw [Programmer.pollReady_succ]
    refine (readStatus p).once_bind ?_ ?_
    · intro y hy hdone
      have hlook := Exchange.looks_of_command hy
      split
      case isTrue hready =>
        intro s log
        refine ⟨[], (List.append_nil log).symm, by simpa using hlook, .single, fun _ _ => ?_⟩
        refine ⟨by simpa using hdone, y, by simp, hlook, hdone, ?_⟩
        simpa using hready
      case isFalse =>
        intro s log
        obtain ⟨more, hlog, hlooks, hstops, hok⟩ := ih (p.delay interval s) log
        refine ⟨more, hlog, by simpa using ⟨hlook, hlooks⟩, hstops.cons hdone, fun a ha => ?_⟩
        obtain ⟨hall, z, hz, hready⟩ := hok a ha
        exact ⟨by simpa using ⟨hdone, hall⟩, z, List.mem_cons_of_mem y hz, hready⟩
    · intro y e hy
      have hlook := Exchange.looks_of_command hy
      exact ⟨by simpa using hlook, .single, nofun⟩

/-- A command that is prepared, sent and waited for keeps the law. -/
theorem change {x : Act (σ × List Exchange) Stop α} {c : Command} {g : Exchange → α}
    (interval : Nat) (hx : Sends x (Once c g)) (hl : Prepares c lead)
    (hc : ∀ f : EraseFunction, c.opcode = f.opcode → f.erasesChip = true →
      c.address = none ∧ whole f) :
    Sends (x >>= fun _ => p.recorded.waitReady interval) fun sent r =>
      (Law.discipline whole).holds (lead ++ sent) ∧
        ∀ a, r = .ok a → (Law.discipline whole).complete (lead ++ sent) ∧ True := by
  refine hx.once_bind ?_ ?_
  · rintro y rfl hdone
    refine (pollReady p interval _).mono ?_
    rintro polls r ⟨hlooks, hstops, hok⟩
    have hs : Sentence lead y polls := ⟨hl, hlooks, hstops.cons hdone⟩
    refine ⟨hs.disciplined hc, fun a ha => ⟨?_, trivial⟩⟩
    obtain ⟨hall, hready⟩ := hok a ha
    exact hs.settled hdone hall hready
  · rintro y e rfl
    have hs : Sentence lead y [] := ⟨hl, by simp, .single⟩
    exact ⟨hs.disciplined hc, nofun⟩

end Sends

namespace Law

variable {p} {addr len chipSize : Nat} {data buffer : Bytes} {f : EraseFunction}

theorem discipline_readInto :
    (Law.discipline whole).Obeys (p.recorded.readInto addr buffer) fun _ => True := by
  refine (Sends.readInto p).mono ?_
  rintro sent r ⟨y, rfl, hc, hok⟩
  have hread : ¬y.command.Changes := Command.not_changes_readData (by rw [hc]; rfl)
  refine ⟨.of_not_changes (by simpa using hread) .single, fun a ha => ⟨?_, trivial⟩⟩
  have hquiet : Quiet [y] := ⟨by simpa using (hok a ha).1, by simpa using hread⟩
  exact hquiet.settled

theorem discipline_programPage :
    (Law.discipline whole).Obeys (p.recorded.programPage addr data) fun _ => True := by
  refine Sends.latch_bind p ?_ ?_
  · intro lead latch hquiet hset
    split
    case isTrue hlatch =>
      refine Sends.change p _ (Sends.send p _) (hset hlatch _) ?_
      intro f hf
      exact absurd hf.symm f.opcode_ne_common.2.2.2
    case isFalse =>
      refine Law.Obeys.after ?_ hquiet.disciplined hquiet.settled
      exact .bind (.tell p _) fun _ _ => .fail
  · intro t e hquiet hstops
    exact ⟨.of_not_changes hquiet hstops, nofun⟩

end Law

theorem Programmer.eraseCommand_opcode (f : EraseFunction) (addr : Nat) :
    (eraseCommand f addr).opcode = f.opcode := by
  unfold eraseCommand
  split <;> rfl

/-- Of the erases the ones that need the latch, and only they, are prepared with it. -/
theorem Programmer.needsLatch_eraseCommand {f : EraseFunction} {addr : Nat} :
    (eraseCommand f addr).NeedsLatch ↔ f.needsWriteEnable = true := by
  unfold Command.NeedsLatch
  rw [eraseCommand_opcode]
  constructor
  · rintro (h | ⟨g, hg, h⟩)
    · exact absurd h f.opcode_ne_common.2.2.2
    · rwa [EraseFunction.opcode_injective h]
  · intro h
    exact .inr ⟨f, h, rfl⟩

theorem Programmer.eraseCommand_address {f : EraseFunction} {addr : Nat}
    (h : f.erasesChip = true) : (eraseCommand f addr).address = none := by
  unfold eraseCommand
  rw [if_pos h]
  rfl

namespace Sends

variable {f : EraseFunction} {addr : Nat}

/-- The latch is prepared for the erases that need it. -/
theorem enableErase :
    Sends (p.recorded.enableErase f addr) fun sent r =>
      (∀ y ∈ sent, ¬y.command.Changes) ∧ Stops sent ∧
        ∀ a, r = .ok a → Prepares (Programmer.eraseCommand f addr) sent := by
  unfold Programmer.enableErase
  split
  case isTrue =>
    refine latch_bind p ?_ ?_
    · intro lead latch hquiet hset
      refine Sends.mono (Sends.silent (q := fun r => ∀ a, r = .ok a → latch = true) ?_) ?_
      · intro s
        cases latch with
        | true => exact ⟨rfl, fun _ _ => rfl⟩
        | false => exact ⟨rfl, nofun⟩
      · rintro more r ⟨rfl, hok⟩
        rw [List.append_nil]
        exact ⟨hquiet.changes_none, hquiet.stops, fun a ha => hset (hok a ha) _⟩
    · intro t e hquiet hstops
      exact ⟨hquiet, hstops, nofun⟩
  case isFalse hf =>
    intro s log
    refine ⟨[], (List.append_nil log).symm, by simp, Quiet.nil.stops, fun _ _ => ⟨Quiet.nil, ?_⟩⟩
    intro hneeds
    exact absurd (Programmer.needsLatch_eraseCommand.mp hneeds) hf

end Sends

/-- A block is erased by the rules; the chip only where that is allowed. -/
theorem Law.discipline_eraseBlock {p : Programmer σ} {f : EraseFunction} {addr len chipSize : Nat}
    (h : f.erasesChip = true → addr = 0 → len = chipSize → whole f) :
    (Law.discipline whole).Obeys (p.recorded.eraseBlock f addr len chipSize) fun _ => True := by
  unfold Programmer.eraseBlock
  split
  case isTrue => exact .bind (.tell p _) fun _ _ => .fail
  case isFalse hpart =>
    refine (Sends.enableErase p).bind ?_ ?_
    · intro lead a hlead
      refine Sends.change p _ (Sends.sendErase p) (hlead.2.2 a rfl) ?_
      intro g hg hchip
      obtain rfl := EraseFunction.opcode_injective
        ((Programmer.eraseCommand_opcode f addr).symm.trans hg)
      refine ⟨Programmer.eraseCommand_address hchip, ?_⟩
      simp only [hchip, Bool.true_and, Bool.or_eq_true, bne_iff_ne, ne_eq, not_or,
        Decidable.not_not] at hpart
      exact h hchip hpart.1 hpart.2
    · rintro lead e ⟨hquiet, hstops, _⟩
      exact ⟨.of_not_changes hquiet hstops, nofun⟩

/-- In the plan for the range there is a block that is the whole chip, and `f` erases it. -/
def Chip.ErasedWhole (c : Chip) (start len : Nat) (exact : Bool) (f : EraseFunction) : Prop :=
  ∃ plan, Plan.make c.regions start len exact = .ok plan ∧
    ∃ b ∈ plan.blocks, b.function = f ∧ b.start = 0 ∧ b.size = c.size

/-- What is sent is sent by the rules, and if it ends well then nothing failed and nothing is left
running. -/
structure Orderly (whole : EraseFunction → Prop) (sent : List Exchange) (r : Except Stop α) :
    Prop where
  disciplined : Disciplined whole sent
  settled : ∀ a, r = .ok a → Settled sent

theorem Law.Obeys.sends_orderly {x : Act (σ × List Exchange) Stop α} {q : α → Prop}
    (hx : (Law.discipline whole).Obeys x q) : Sends x (Orderly whole) := by
  refine Sends.mono hx fun sent r hpost => ⟨hpost.1, fun a ha => ?_⟩
  exact (hpost.2 a ha).1

/-- Whatever the programmer answers, writes and erases send their commands by the rules. -/
theorem Programmer.orderly (p : Programmer σ) (c : Chip) :
    (∀ strategy start data, Sends (p.recorded.write c strategy start data)
      (Orderly (c.ErasedWhole start data.size false))) ∧
    ∀ start len exact, Sends (p.recorded.erase c start len exact)
      (Orderly (c.ErasedWhole start len exact)) := by
  have hblock : ∀ start len exact plan,
      Plan.make c.regions start len exact = .ok plan → ∀ b ∈ plan.blocks,
        (Law.discipline (c.ErasedWhole start len exact)).Obeys
          (p.recorded.eraseBlock b.function b.start b.size c.size) fun _ => True := by
    intro start len exact plan hplan b hb
    exact Law.discipline_eraseBlock fun _ hstart hsize => ⟨plan, hplan, b, hb, rfl, hstart, hsize⟩
  constructor
  · intro strategy start data
    exact Law.Obeys.sends_orderly ((Law.judgment _ p).write c (fun _ _ => Law.discipline_readInto)
      (fun _ _ => Law.discipline_programPage) (hblock start data.size false) strategy)
  · intro start len exact
    exact Law.Obeys.sends_orderly ((Law.judgment _ p).erase c (hblock start len exact))

/-- Erasing one block of the small chip, which says busy twice. -/
example : (commandsOf (Emulator.programmer.recorded.erase Chip.sample 8 4 true)
    Emulator.sample).map Command.opcode = [0x06, 0x05, 0x20, 0x05, 0x05, 0x05] := by
  cbv

end NorFlash
