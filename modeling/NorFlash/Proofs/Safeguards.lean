import NorFlash.Flash.Write
import NorFlash.Proofs.Commands

namespace NorFlash

/-- Some command is answered with this. -/
def Programmer.Answers {σ : Type} (p : Programmer σ) (err : Stop) : Prop :=
  ∃ command s, (p.execute command s).1 = .error err

/-- However the step ends, it is not with this. -/
def Act.Spares {σ ε α : Type} (x : Act σ ε α) (err : ε) : Prop := ∀ s, (x s).1 ≠ .error err

variable {σ α β : Type} {p : Programmer σ} {c : Chip} {plan : Plan} {b : Block} {err : Stop}
  {addr len start : Nat} {f : EraseFunction} {exact : Bool}

namespace Act.Spares

variable {x : Act σ Stop α} {g : α → Act σ Stop β}

theorem pure (a : α) : (Pure.pure a : Act σ Stop α).Spares err := nofun

theorem modify (h : σ → σ) : (Act.modify h : Act σ Stop Unit).Spares err := nofun

theorem fail {e : Stop} (h : e ≠ err) : (Act.fail e : Act σ Stop α).Spares err :=
  fun _ he => h (Except.error.inj he)

theorem bind (hx : x.Spares err) (hg : ∀ a, (g a).Spares err) : (x >>= g).Spares err := by
  intro s
  cases hxs : x s with
  | mk r s' =>
    cases r with
    | ok a =>
      rw [Act.bind_ok hxs]
      exact hg a s'
    | error e =>
      have hne := hx s
      rw [hxs] at hne
      rw [Act.bind_error hxs]
      exact fun he => hne (congrArg _ (Except.error.inj he))

theorem mapError {h : Stop → Stop} (hh : ∀ e, h e ≠ err) : (x.mapError h).Spares err := by
  intro s
  unfold Act.mapError
  cases x s with
  | mk r s' =>
    cases r with
    | ok a => exact nofun
    | error e => exact fun he => hh e (Except.error.inj he)

end Act.Spares

namespace Programmer

open Act

theorem send_spares (hp : ¬p.Answers err) (command : Command) : (p.send command).Spares err := by
  intro s
  have hne : (p.execute command s).1 ≠ .error err := fun he => hp ⟨command, s, he⟩
  unfold send
  cases hx : p.execute command s with
  | mk r s' =>
    rw [hx] at hne
    cases r with
    | ok reply => exact nofun
    | error e => exact hne

theorem readStatus_spares (hp : ¬p.Answers err) : p.readStatus.Spares err :=
  (send_spares hp _).bind fun _ => .pure _

theorem pollReady_spares (hp : ¬p.Answers err) (hstalled : .stalled ≠ err) (interval polls : Nat) :
    Spares (p.pollReady interval polls) err := by
  induction polls with
  | zero => exact fun _ he => hstalled (Except.error.inj he)
  | succ polls ih =>
    rw [pollReady_succ]
    refine (readStatus_spares hp).bind fun status => ?_
    split
    · exact .pure _
    · exact (Spares.modify _).bind fun _ => ih

end Programmer

section PartialChip

/-- The refusal of an instruction for the whole chip that is asked for less. -/
abbrev Stop.partialChip (addr len : Nat) : Stop := .error (.erase (.partialChip addr len))

variable {a n : Nat} (hp : ¬p.Answers (.partialChip a n))
include hp

namespace Programmer

open Act

theorem enableErase_spares : (p.enableErase f addr).Spares (.partialChip a n) := by
  unfold enableErase
  split
  case isFalse => exact .pure _
  case isTrue =>
    refine ((send_spares hp _).bind fun _ => .pure _).bind fun _ => ?_
    refine ((readStatus_spares hp).bind fun _ => .pure _).bind fun latch => ?_
    split
    · exact .pure _
    · exact .fail (by simp)

end Programmer

/-- The guard lets every block through, and behind it nothing raises the refusal. -/
theorem Block.Within.eraseBlock_spares (hw : b.Within c.regions) (hc : c.Accepted) :
    (p.eraseBlock b.function b.start b.size c.size).Spares (.partialChip a n) := by
  rw [Programmer.eraseBlock_unguarded (hw.whole hc)]
  refine (Programmer.enableErase_spares hp).bind fun _ => ?_
  refine (Act.Spares.mapError ?_).bind fun _ => Programmer.pollReady_spares hp (by simp) _ _
  intro e
  cases e <;> simp

end PartialChip

namespace Plan.Covers

variable {stop : Nat} (h : plan.Covers c.regions start stop) (hc : c.Accepted)
include h hc

/-- A block of the whole chip leaves no place for another one. -/
theorem alone_of_whole (hb : b ∈ plan.blocks) (hf : b.function.erasesChip = true) :
    plan.blocks = [b] := by
  obtain ⟨hstart, hsize⟩ := (h.within b hb).whole hc hf
  obtain ⟨before, after, hsplit⟩ := List.append_of_mem hb
  have hordered := pairwise_of_chained h.within h.chained
  rw [hsplit] at hordered
  obtain ⟨_, hafter, hbefore⟩ := List.pairwise_append.mp hordered
  have hnone : before = [] := by
    refine List.eq_nil_iff_forall_not_mem.mpr fun x hx => ?_
    have hlt := (h.within x (by simp [hsplit, hx])).start_lt_stop
    have hle := hbefore x hx b List.mem_cons_self
    omega
  have hnone' : after = [] := by
    refine List.eq_nil_iff_forall_not_mem.mpr fun x hx => ?_
    have hw := h.within x (by simp [hsplit, hx])
    have hlt := hw.start_lt_stop
    have hle := (List.pairwise_cons.mp hafter).1 x hx
    have hin := hw.inside hc
    unfold Block.stop at hle hlt hin
    omega
  rw [hsplit, hnone, hnone', List.nil_append]

theorem checkRange_ok (p : Programmer σ) (s : σ) :
    p.checkRange c plan.start plan.erasedBytes s = (.ok (), s) :=
  if_pos (by simpa [Chip.holds] using h.inside hc)

end Plan.Covers

namespace Emulator

variable {command : Command} {a n : Nat} {data : Bytes} {stop : Stop}

/-- The ways in which an emulated chip stops. -/
def stops : List Stop :=
  [.error .addressOutOfBounds, .error .writeProtected, .error .opcodeNotSupported, .crashed]

theorem ne_of_mem_stops {e : Stop} {e' : Emulator} (he : e ∈ stops) (h : stop ∉ stops) :
    ((.error e, e') : Except Stop Bytes × Emulator).1 ≠ .error stop := by
  intro hs
  cases hs
  exact h he

theorem read_spares (h : stop ∉ stops) : (read addr len).Spares stop := by
  intro e
  unfold read
  split
  · exact ne_of_mem_stops (by decide) h
  · exact nofun

theorem program_spares (h : stop ∉ stops) : (program addr data).Spares stop := by
  intro e
  unfold program
  dsimp only
  split
  · exact ne_of_mem_stops (by decide) h
  · split
    · exact ne_of_mem_stops (by decide) h
    · split
      · exact ne_of_mem_stops (by decide) h
      · exact nofun

theorem erase_spares (h : stop ∉ stops) : (erase f addr).Spares stop := by
  intro e
  unfold erase
  split
  · exact ne_of_mem_stops (by decide) h
  · cases eraseSize? e.chip f with
    | none => exact ne_of_mem_stops (by decide) h
    | some size =>
      simp only [eraseCells]
      split
      · exact ne_of_mem_stops (by decide) h
      · split
        · exact ne_of_mem_stops (by decide) h
        · intro hok
          cases hok

theorem common?_spares (h : stop ∉ stops) {x : Act Emulator Stop Bytes}
    (hx : common? command = some x) : x.Spares stop := by
  unfold common? at hx
  split_ifs at hx <;> cases hx
  · exact nofun
  · exact nofun
  · exact nofun
  · exact nofun
  · exact read_spares h
  · exact program_spares h

theorem answers_stops (h : stop ∉ stops) : ¬programmer.Answers stop := by
  rintro ⟨command, e, he⟩
  refine absurd he ?_
  change (execute command e).1 ≠ _
  unfold execute
  cases hx : common? command with
  | some x => exact common?_spares h hx e
  | none =>
    cases EraseFunction.ofOpcode? command.opcode with
    | some f => exact erase_spares h e
    | none => exact ne_of_mem_stops (by decide) h

/-- An emulated chip knows of no chip erase that is too small. -/
theorem answers_no_partialChip : ¬programmer.Answers (.partialChip a n) :=
  answers_stops (by simp [stops])

/-- Every command is answered at once. -/
theorem answers_no_stall : ¬programmer.Answers .stalled :=
  answers_stops (by decide)

end Emulator

/-- Whatever the range, a plan for a chip of a vendor file that loads, however its text is read,
lies inside the chip, so that the checks before it is carried out pass; a block of it that is
refused for erasing less than the whole chip was refused by the programmer; and where one
instruction erases the whole chip it is all of the plan. -/
theorem Plan.make_safe {parse : VendorFile.Parser} {text : String} {cs : List Chip}
    (hload : VendorFile.chips parse text = .ok cs) (hc : c ∈ cs)
    (hplan : Plan.make c.regions start len exact = .ok plan) :
    plan.start < plan.stop ∧ plan.stop ≤ c.size ∧
      (∀ {σ : Type} (p : Programmer σ) s,
        p.checkRange c plan.start plan.erasedBytes s = (.ok (), s)) ∧
      (∀ b ∈ plan.blocks, ∀ {σ : Type} (p : Programmer σ) s addr n,
        (p.eraseBlock b.function b.start b.size c.size s).1 =
            .error (.error (.erase (.partialChip addr n))) →
          p.Answers (.error (.erase (.partialChip addr n)))) ∧
      ∀ b ∈ plan.blocks, b.function.erasesChip = true → plan.blocks = [b] := by
  have hacc : c.Accepted := VendorFile.chips_accepted hload c hc
  have h := make_covers hplan
  refine ⟨h.start_lt_stop, h.stop_le_size hacc, fun p s => h.checkRange_ok hacc p s, ?_,
    fun b hb => h.alone_of_whole hacc hb⟩
  intro b hb σ p s addr n herror
  by_contra hp
  exact (h.within b hb).eraseBlock_spares hp hacc s herror

/-- A vendor file with a chip whose sectors stop short of its end. -/
def VendorFile.shortText : String :=
  "(vendor:\"\",manufacturer_id:0,chips:[(id:\"\",name:\"\",device_id:0,total_size:B(32)," ++
    "erase_regions:[(size:B(4),count:7,opcode:32),(size:B(32),count:1,opcode:199)])])"

/-- The chip in it. -/
def Chip.short : Chip where
  id := ""
  vendor := ""
  name := ""
  manufacturer := 0
  model := 0
  size := 32
  pageSize := 256
  features := {}
  voltageMin := 2700
  voltageMax := 3600
  probe := .rdid
  regions := [⟨0, 4, 7, .erase20⟩, ⟨0, 32, 1, .eraseC7⟩]

/-- A reader that knows this text only. -/
def VendorFile.readShort : Parser := fun text =>
  if text = shortText then some Chip.short.vendorDefinition else none

theorem Chip.short_accepted : short.Accepted :=
  toChips_vendorDefinition.mp (by cbv)

theorem VendorFile.chips_short : chips readShort shortText = .ok [Chip.short] := by
  unfold chips readShort
  rw [if_pos rfl]
  exact Chip.toChips_vendorDefinition.mpr Chip.short_accepted

/-- A range that begins in the last sector and goes on behind it takes the whole chip, and an
emulation of the chip does not refuse that. -/
theorem Plan.make_safe_whole_chip :
    let whole : Block := ⟨⟨0, 32, 1, .eraseC7⟩, 0⟩
    let plan : Plan := ⟨[whole]⟩
    make Chip.short.regions 26 5 false = .ok plan ∧ plan.stop ≤ Chip.short.size ∧
      ∀ (e : Emulator) addr n,
        Emulator.programmer.checkRange Chip.short plan.start plan.erasedBytes e = (.ok (), e) ∧
          (Emulator.programmer.eraseBlock whole.function whole.start whole.size Chip.short.size
            e).1 ≠ .error (.error (.erase (.partialChip addr n))) := by
  intro whole plan
  have hplan : make Chip.short.regions 26 5 false = .ok plan := by cbv
  have hmem : Chip.short ∈ [Chip.short] := List.mem_singleton.mpr rfl
  obtain ⟨_, hstop, hcheck, herase, _⟩ := make_safe VendorFile.chips_short hmem hplan
  refine ⟨hplan, hstop, fun e addr n => ⟨hcheck Emulator.programmer e, fun he => ?_⟩⟩
  have hwhole : whole ∈ plan.blocks := List.mem_singleton.mpr rfl
  exact Emulator.answers_no_partialChip (herase whole hwhole Emulator.programmer e addr n he)

end NorFlash
