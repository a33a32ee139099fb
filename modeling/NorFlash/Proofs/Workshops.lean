import NorFlash.Proofs.Parallel
import NorFlash.Session.Queue

namespace NorFlash

open Act (Mirrors)

variable {ω ω' μ μ' ε α : Type} {shop' : Workshop ω' μ'} {shop : Workshop ω μ}

/-- Messages keep the relation. -/
def FileStore.Notes (W : ω' → ω → Prop) (files' : FileStore ω') (files : FileStore ω) : Prop :=
  ∀ n w' w, W w' w → W (files'.note n w') (files.note n w)

section Aside

variable {W : ω' → ω → Prop} {files' : FileStore ω'} {files : FileStore ω}

theorem FileStore.Notes.all (hn : files'.Notes W files) (ns : List Notice) {w' : ω'} {w : ω}
    (hw : W w' w) :
    W (ns.foldl (fun w n => files'.note n w) w') (ns.foldl (fun w n => files.note n w) w) := by
  induction ns generalizing w' w with
  | nil => exact hw
  | cons n ns ih => exact ih (hn n w' w hw)

theorem Workshop.tell_mirrors (hn : shop'.files.Notes W shop.files) (n : Notice) :
    Mirrors W (shop'.tell n : Act ω' ε Unit) (shop.tell n) :=
  .modify (hn n)

theorem Image.load_mirrors (hn : files'.Notes W files) {path : String}
    (hread : Mirrors W (files'.read path) (files.read path)) (size : Nat) :
    Mirrors W (load files' path size) (load files path size) := by
  intro w' w hw
  obtain ⟨r, u', u, hx', hx, hu⟩ := hread.ends hw
  simp only [load, hx', hx]
  cases r with
  | error e => exact ⟨rfl, hu⟩
  | ok content =>
    refine ⟨rfl, hn _ _ _ ?_⟩
    split
    · exact hn _ _ _ hu
    · exact hu

theorem Image.save_mirrors (hn : files'.Notes W files) {path : String} {data : Bytes}
    (hwrite : Mirrors W (files'.write path data) (files.write path data)) :
    Mirrors W (save files' path data) (save files path data) := by
  intro w' w hw
  obtain ⟨r, u', u, hx', hx, hu⟩ := hwrite.ends hw
  simp only [save, hx', hx]
  cases r with
  | ok _ => exact ⟨rfl, hn _ _ _ hu⟩
  | error e => exact ⟨rfl, hu⟩

theorem Session.checkVoltage_mirrors (hn : shop'.files.Notes W shop.files) (args : String)
    (c : Chip) : Mirrors W (checkVoltage shop' args c) (checkVoltage shop args c) := by
  unfold checkVoltage
  cases Parameters.value? args "voltage" with
  | none => exact .pure ()
  | some v =>
    refine .bind (.ofExcept _) fun millivolts => ?_
    split
    · exact .pure ()
    · exact Workshop.tell_mirrors hn _

end Aside

namespace Session

/-- What reading into a file does with the open programmer. -/
def readWork (shop : Workshop ω μ) (path : String) (chip : Chip) : Work ω μ Unit := do
  say shop (.info fun _ => s!"Reading flash to {path}")
  let data ← chipWork (shop.programmer.readChip chip)
  aside (Image.save shop.files path data)
  say shop (.info fun _ => s!"Read {data.size} bytes into {path}")

/-- What comparing with a file does with the open programmer. -/
def verifyWork (shop : Workshop ω μ) (path : String) (chip : Chip) : Work ω μ Verdict := do
  let expected ← aside (Image.load shop.files path chip.size)
  let verdict ← chipWork (shop.programmer.verify chip 0 expected)
  Act.modify fun (h, w) => (h, (verdictNotices path verdict).foldl (fun w n => shop.note n w) w)
  return verdict

/-- What selecting a chip does with the open programmer. -/
def selecting (shop : Workshop ω μ) (name args : String) : Work ω μ Chip := do
  let chip ← shop.programmer.selectChip shop.catalog name
  aside (checkVoltage shop args chip)
  return chip

end Session

/-- The states of two worlds, with an open programmer in each. -/
def Within (H : μ' × ω' → μ × ω → Prop) (h' : μ') (h : μ) (w' : ω') (w : ω) : Prop :=
  H (h', w') (h, w)

/-- Both workshops know the same chips, and what is done with open programmers and what is told
keeps the relation. -/
structure Workshop.Parallel (H : μ' × ω' → μ × ω → Prop) (shop' : Workshop ω' μ')
    (shop : Workshop ω μ) : Prop where
  programmer : shop'.programmer.Parallel H shop.programmer
  notes : ∀ h' h, shop'.files.Notes (Within H h' h) shop.files
  catalog : shop'.catalog = shop.catalog

namespace Workshop.Parallel

variable {H : μ' × ω' → μ × ω → Prop} {path : String}

omit shop shop' in
theorem aside {x' : Act ω' Failure α} {x : Act ω Failure α}
    (hx : ∀ h' h, Mirrors (Within H h' h) x' x) : Mirrors H (Session.aside x') (Session.aside x) := by
  rintro ⟨h', w'⟩ ⟨h, w⟩ hr
  obtain ⟨r, u', u, hx', hx, hu⟩ := (hx h' h).ends hr
  simp only [Session.aside, hx', hx]
  cases r with
  | ok a => exact ⟨rfl, hu⟩
  | error f => exact ⟨rfl, hu⟩

variable (hs : shop'.Parallel H shop)
include hs

theorem say (n : Notice) : Mirrors H (Session.say shop' n) (Session.say shop n) :=
  aside fun h' h => tell_mirrors (hs.notes h' h) n

theorem selecting (name args : String) :
    Mirrors H (Session.selecting shop' name args) (Session.selecting shop name args) := by
  unfold Session.selecting
  rw [hs.catalog]
  refine .bind (hs.programmer.selectChip shop.catalog name) fun c => ?_
  exact .bind (aside fun h' h => Session.checkVoltage_mirrors (hs.notes h' h) args c) fun _ => .pure c

theorem readWork (c : Chip) (hwrite : ∀ data h' h,
      Mirrors (Within H h' h) (shop'.files.write path data) (shop.files.write path data)) :
    Mirrors H (Session.readWork shop' path c) (Session.readWork shop path c) := by
  refine .bind (hs.say _) fun _ => .bind (.mapError (hs.programmer.readChip c) _) fun data => ?_
  refine .bind (aside fun h' h => ?_) fun _ => hs.say _
  exact Image.save_mirrors (hs.notes h' h) (hwrite data h' h)

theorem load (size : Nat) (hread : ∀ h' h,
      Mirrors (Within H h' h) (shop'.files.read path) (shop.files.read path)) :
    Mirrors H (Session.aside (Image.load shop'.files path size))
      (Session.aside (Image.load shop.files path size)) :=
  aside fun h' h => Image.load_mirrors (hs.notes h' h) (hread h' h) size

theorem writeWork (x : Strategy) (c : Chip) (hread : ∀ h' h,
      Mirrors (Within H h' h) (shop'.files.read path) (shop.files.read path)) :
    Mirrors H (Session.writeWork shop' path x c) (Session.writeWork shop path x c) := by
  refine .bind (hs.load c.size hread) fun data => .bind (hs.say _) fun _ => ?_
  refine .bind (.mapError (hs.programmer.write c x 0 data) _) fun stats => ?_
  exact .bind (hs.say _) fun _ => .pure stats

theorem verifyWork (c : Chip) (hread : ∀ h' h,
      Mirrors (Within H h' h) (shop'.files.read path) (shop.files.read path)) :
    Mirrors H (Session.verifyWork shop' path c) (Session.verifyWork shop path c) := by
  refine .bind (hs.load c.size hread) fun expected => ?_
  refine .bind (.mapError (hs.programmer.verify c 0 expected) _) fun verdict => ?_
  exact .bind (.modify fun s' s hr => (hs.notes s'.1 s.1).all _ hr) fun _ => .pure verdict

end Workshop.Parallel
end NorFlash
