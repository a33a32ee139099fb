import NorFlash.Flash.Write
import NorFlash.Proofs.Ranges

namespace NorFlash

/-- What holds of a step of one programmer beside a step of another, and of the value they end with:
whatever this is, it is kept by sequences, and holds of all that is done without a command. -/
structure Judgment {σ τ : Type} (p : Programmer σ) (q : Programmer τ) where
  holds : {α : Type} → Act σ Stop α → Act τ Stop α → (α → Prop) → Prop
  pure : ∀ {α : Type} {a : α} {post : α → Prop}, post a → holds (Pure.pure a) (Pure.pure a) post
  fail : ∀ {α : Type} {e : Stop} {post : α → Prop}, e ≠ .stalled →
    holds (Act.fail e) (Act.fail e) post
  bind : ∀ {α β : Type} {x : Act σ Stop α} {y : Act τ Stop α} {f : α → Act σ Stop β}
    {g : α → Act τ Stop β} {mid : α → Prop} {post : β → Prop}, holds x y mid →
    (∀ a, mid a → holds (f a) (g a) post) → holds (x >>= f) (y >>= g) post
  onError : ∀ {α : Type} {x : Act σ Stop α} {y : Act τ Stop α} {post : α → Prop}
    {n : Error → Notice}, holds x y post → holds (p.onError x n) (q.onError y n) post
  mapError : ∀ {α : Type} {x : Act σ Stop α} {y : Act τ Stop α} {post : α → Prop}
    {u : Stop → Stop}, (∀ e, u e = .stalled → e = .stalled) → holds x y post →
    holds (x.mapError u) (y.mapError u) post
  tell : ∀ n, holds (p.tell n) (q.tell n) fun _ => True
  progress : ∀ e, holds (p.progress e) (q.progress e) fun _ => True
  maxRead : holds (Act.read p.maxRead) (Act.read q.maxRead) fun _ => True
  maxWrite : holds (Act.read p.maxWrite) (Act.read q.maxWrite) fun _ => True

variable {σ τ α β γ : Type}

theorem Act.bind_pure {ε : Type} (x : Act σ ε α) : x >>= Pure.pure = x := by
  funext s
  rw [bind_apply]
  cases x s with
  | mk r s' => cases r <;> rfl

namespace Programmer

variable (p : Programmer σ)

/-- To be quiet makes no difference to what reports nothing. -/
theorem quiet_pollReady (interval polls : Nat) :
    p.quiet.pollReady interval polls = p.pollReady interval polls := by
  induction polls with
  | zero => rfl
  | succ polls ih =>
    rw [pollReady_succ, pollReady_succ, ih]
    rfl

theorem quiet_waitReady (interval : Nat) : p.quiet.waitReady interval = p.waitReady interval :=
  p.quiet_pollReady interval _

theorem quiet_eraseBlock (f : EraseFunction) (addr len size : Nat) :
    p.quiet.eraseBlock f addr len size = p.eraseBlock f addr len size := by
  unfold eraseBlock
  simp only [quiet_waitReady]
  rfl

theorem quiet_programPage (addr : Nat) (data : Bytes) :
    p.quiet.programPage addr data = p.programPage addr data := by
  unfold programPage
  simp only [quiet_waitReady]
  rfl

theorem checkRange_eq (c : Chip) (addr len : Nat) :
    p.checkRange c addr len = if c.holds addr len then pure () else
      p.tell (c.outsideNotice addr len) >>= fun _ => Act.fail (.error .addressOutOfBounds) := by
  funext s
  unfold checkRange
  split <;> rfl

end Programmer

namespace Judgment

variable {p : Programmer σ} {q : Programmer τ} (J : Judgment p q) {x : Act σ Stop α}
  {y : Act τ Stop α} {post : α → Prop}

theorem mono {post' : α → Prop} (hx : J.holds x y post) (h : ∀ a, post a → post' a) :
    J.holds x y post' := by
  rw [← Act.bind_pure x, ← Act.bind_pure y]
  exact J.bind hx fun a ha => J.pure (h a ha)

theorem weaken (hx : J.holds x y post) : J.holds x y fun _ => True :=
  J.mono hx fun _ _ => trivial

/-- The same of programmers that tell nothing of their progress. -/
def quiet : Judgment p.quiet q.quiet where
  holds := J.holds
  pure := J.pure
  fail := J.fail
  bind := J.bind
  onError := J.onError
  mapError := J.mapError
  tell := J.tell
  progress _ := J.pure trivial
  maxRead := J.maxRead
  maxWrite := J.maxWrite

theorem fold {f : β → γ → Act σ Stop β} {g : β → γ → Act τ Stop β} {xs : List γ} {b : β}
    (inv : β → Prop) (h₀ : inv b) (h : ∀ b, ∀ x ∈ xs, inv b → J.holds (f b x) (g b x) inv) :
    J.holds (Act.fold f b xs) (Act.fold g b xs) inv := by
  induction xs generalizing b with
  | nil => exact J.pure h₀
  | cons x xs ih =>
    rw [Act.fold_cons, Act.fold_cons]
    refine J.bind (h b x List.mem_cons_self h₀) fun b' hb' => ?_
    exact ih hb' fun b'' y hy => h b'' y (List.mem_cons_of_mem x hy)

theorem tellAll (ns : List Notice) : J.holds (p.tellAll ns) (q.tellAll ns) fun _ => True := by
  induction ns with
  | nil => exact J.pure trivial
  | cons n ns ih => exact J.bind (J.tell n) fun _ _ => ih

theorem require (o : Option α) :
    J.holds (Stop.require o) (Stop.require o) fun a => o = some a := by
  cases o with
  | none => exact J.fail nofun
  | some a => exact J.pure rfl

theorem word (n bound : Nat) :
    J.holds (Stop.word n bound) (Stop.word n bound) fun a => a = n := by
  unfold Stop.word
  split
  · exact J.pure rfl
  · exact J.fail nofun

theorem lift (r : Except Error α) : J.holds (Stop.lift r) (Stop.lift r) fun a => r = .ok a := by
  cases r with
  | ok a => exact J.pure rfl
  | error e => exact J.fail nofun

section Commands

variable {P : Command → Prop} {f : EraseFunction} {addr : Nat} {data : Bytes}
  (hsend : ∀ command, P command → J.holds (p.send command) (q.send command) fun _ => True)
include hsend

theorem readStatus (hstatus : P (.readRegister Opcode.readStatus (Bytes.filled 1 0))) :
    J.holds p.readStatus q.readStatus fun _ => True :=
  J.bind (hsend _ hstatus) fun _ _ => J.pure trivial

theorem writeEnable (henable : P (.bare Opcode.writeEnable)) :
    J.holds p.writeEnable q.writeEnable fun _ => True :=
  J.bind (hsend _ henable) fun _ _ => J.pure trivial

theorem readInto {buffer : Bytes} (h : P (.readAt Opcode.readData addr buffer)) :
    J.holds (p.readInto addr buffer) (q.readInto addr buffer) fun _ => True :=
  J.onError (hsend _ h)

theorem sendErase (h : P (Programmer.eraseCommand f addr)) :
    J.holds (p.sendErase f addr) (q.sendErase f addr) fun _ => True := by
  refine J.mapError ?_ (J.bind (J.onError (hsend _ h)) fun _ _ => J.pure trivial)
  intro e he
  cases e with
  | error => cases he
  | stalled => rfl
  | crashed => cases he

variable (hstatus : P (.readRegister Opcode.readStatus (Bytes.filled 1 0)))
  (henable : P (.bare Opcode.writeEnable))
include hstatus

theorem checkLatch : J.holds p.checkLatch q.checkLatch fun _ => True :=
  J.bind (J.readStatus hsend hstatus) fun _ _ => J.pure trivial

include henable

theorem enableErase (f : EraseFunction) (addr : Nat) :
    J.holds (p.enableErase f addr) (q.enableErase f addr) fun _ => True := by
  unfold Programmer.enableErase
  split
  · refine J.bind (J.writeEnable hsend henable) fun _ _ => ?_
    refine J.bind (J.checkLatch hsend hstatus) fun latch _ => ?_
    split
    · exact J.pure trivial
    · exact J.fail nofun
  · exact J.pure trivial

variable (hwait : ∀ interval, J.holds (p.waitReady interval) (q.waitReady interval) fun _ => True)
include hwait

theorem programPage (h : P (.writeAt Opcode.pageProgram addr data)) :
    J.holds (p.programPage addr data) (q.programPage addr data) fun _ => True := by
  refine J.bind (J.writeEnable hsend henable) fun _ _ => ?_
  refine J.bind (J.checkLatch hsend hstatus) fun latch _ => ?_
  split
  · exact J.bind (hsend _ h) fun _ _ => hwait _
  · exact J.bind (J.tell _) fun _ _ => J.fail nofun

theorem eraseBlock {len chipSize : Nat} (h : P (Programmer.eraseCommand f addr)) :
    J.holds (p.eraseBlock f addr len chipSize) (q.eraseBlock f addr len chipSize)
      fun _ => True := by
  unfold Programmer.eraseBlock
  split
  · exact J.bind (J.tell _) fun _ _ => J.fail nofun
  · refine J.bind (J.enableErase hsend hstatus henable f addr) fun _ _ => ?_
    exact J.bind (J.sendErase hsend h) fun _ _ => hwait _

end Commands

variable (c : Chip) {addr start len page most : Nat} {data : Bytes}

/-- A range that is not refused lies inside the chip. -/
theorem checkRange (addr len : Nat) :
    J.holds (p.checkRange c addr len) (q.checkRange c addr len) fun _ => addr + len ≤ c.size := by
  rw [Programmer.checkRange_eq, Programmer.checkRange_eq]
  split
  case isTrue hin => exact J.pure (by simpa [Chip.holds] using hin)
  case isFalse => exact J.bind (J.tell _) fun _ _ => J.fail nofun

/-- To walk over a range is judged by its pieces. -/
theorem walk {f : β → Chunk → Act σ Stop β} {g : β → Chunk → Act τ Stop β} {b : β}
    (h : ∀ b, ∀ k ∈ Transfer.pieces page most start len, J.holds (f b k) (g b k) fun _ => True) :
    J.holds (Stop.lift (Transfer.of? start len page most) >>= fun t => t.walk f b)
      (Stop.lift (Transfer.of? start len page most) >>= fun t => t.walk g b) fun _ => True := by
  refine J.bind (J.lift _) fun t ht => ?_
  rw [Transfer.walk_eq_fold, Transfer.walk_eq_fold]
  refine J.fold (fun _ => True) trivial fun b k hk _ => h b k ?_
  rw [Transfer.pieces, ht]
  exact hk

/-- The pieces of a range are read one by one, each into a buffer of its length. -/
theorem readPieces {buffer : Bytes}
    (h : ∀ k ∈ Transfer.pieces page most addr len, ∀ piece : Bytes, piece.size = k.len →
      J.holds (p.readInto k.addr piece) (q.readInto k.addr piece) fun _ => True) :
    J.holds (Stop.lift (Transfer.of? addr len page most) >>= fun t => t.walk p.readChunk buffer)
      (Stop.lift (Transfer.of? addr len page most) >>= fun t => t.walk q.readChunk buffer)
      fun _ => True := by
  refine J.walk fun buffer k hk => ?_
  refine J.bind (J.tell _) fun _ _ => J.bind (J.require _) fun piece hpiece => ?_
  refine J.bind (h k hk piece (Bytes.size_of_slice?_add hpiece)) fun reply _ => ?_
  exact J.bind (J.progress _) fun _ _ => J.weaken (J.require _)

theorem readRange {buffer : Bytes}
    (h : addr + buffer.size ≤ c.size → ∀ most,
      ∀ k ∈ Transfer.pieces c.pageSize most addr buffer.size, ∀ piece,
        J.holds (p.readInto k.addr piece) (q.readInto k.addr piece) fun _ => True) :
    J.holds (p.readRange c addr buffer) (q.readRange c addr buffer) fun _ => True := by
  refine J.bind (J.checkRange c _ _) fun _ hin => J.bind J.maxRead fun most _ => ?_
  exact J.onError (J.readPieces fun k hk piece _ => h hin most k hk piece)

/-- A range is read by reading its pieces. -/
theorem readChunked
    (h : addr + len ≤ c.size → ∀ most, ∀ k ∈ Transfer.pieces c.pageSize most addr len, ∀ piece,
      J.holds (p.readInto k.addr piece) (q.readInto k.addr piece) fun _ => True) :
    J.holds (p.readChunked c addr len) (q.readChunked c addr len) fun _ => True := by
  refine J.readRange c ?_
  rwa [Bytes.size_filled]

/-- The pieces of a range are programmed one by one, each from data of its length. -/
theorem writePieces
    (h : ∀ k ∈ Transfer.pieces page most addr len, ∀ piece : Bytes, piece.size = k.len →
      J.holds (p.programPage k.addr piece) (q.programPage k.addr piece) fun _ => True) :
    J.holds
      (Stop.lift (Transfer.of? addr len page most) >>= fun t =>
        t.walk (fun _ k => p.writeChunk data k) ())
      (Stop.lift (Transfer.of? addr len page most) >>= fun t =>
        t.walk (fun _ k => q.writeChunk data k) ()) fun _ => True := by
  refine J.walk fun _ k hk => ?_
  refine J.bind (J.tell _) fun _ _ => J.bind (J.require _) fun piece hpiece => ?_
  exact J.bind (h k hk piece (Bytes.size_of_slice?_add hpiece)) fun _ _ => J.progress _

/-- A range is programmed by programming its pieces. -/
theorem writeChunked
    (h : addr + data.size ≤ c.size → ∀ most,
      ∀ k ∈ Transfer.pieces c.pageSize most addr data.size, ∀ piece,
        J.holds (p.programPage k.addr piece) (q.programPage k.addr piece) fun _ => True) :
    J.holds (p.writeChunked c addr data) (q.writeChunked c addr data) fun _ => True := by
  refine J.bind (J.checkRange c _ _) fun _ hin => J.bind J.maxWrite fun most _ => ?_
  exact J.onError (J.writePieces fun k hk piece _ => h hin most k hk piece)

section Read

variable (hread : ∀ addr piece,
  J.holds (p.readInto addr piece) (q.readInto addr piece) fun _ => True)
include hread

theorem readChip : J.holds (p.readChip c) (q.readChip c) fun _ => True :=
  J.bind (J.progress _) fun _ _ => J.readChunked c fun _ _ _ _ _ => hread _ _

theorem verify (addr : Nat) (expected : Bytes) :
    J.holds (p.verify c addr expected) (q.verify c addr expected) fun _ => True := by
  refine J.bind (J.progress _) fun _ _ => ?_
  refine J.bind (J.readChunked c fun _ _ _ _ _ => hread _ _) fun found _ => ?_
  cases Bytes.firstDifference? expected found with
  | none => exact J.pure trivial
  | some i => exact J.bind (J.word _ _) fun _ _ => J.pure trivial

end Read

variable {exact : Bool}

theorem plan (start len : Nat) (exact : Bool) :
    J.holds (p.plan c start len exact) (q.plan c start len exact) fun plan =>
      Plan.make c.regions start len exact = .ok plan :=
  J.bind (J.tellAll _) fun _ _ => J.lift _

theorem eraseNext {b : Block}
    (h : J.holds (p.eraseBlock b.function b.start b.size c.size)
      (q.eraseBlock b.function b.start b.size c.size) fun _ => True) (done : Programmer.Erased) :
    J.holds (p.eraseNext c done b) (q.eraseNext c done b) fun _ => True :=
  J.bind h fun _ _ => J.bind (J.progress _) fun _ _ => J.pure trivial

/-- A plan is carried out by erasing its blocks. -/
theorem executePlan {plan : Plan}
    (h : ∀ b ∈ plan.blocks, J.holds (p.eraseBlock b.function b.start b.size c.size)
      (q.eraseBlock b.function b.start b.size c.size) fun _ => True) :
    J.holds (p.executePlan c plan) (q.executePlan c plan) fun _ => True := by
  refine J.bind (J.checkRange c _ _) fun _ _ => J.bind (J.progress _) fun _ _ => ?_
  refine J.bind (J.fold (fun _ => True) trivial fun done b hb _ => ?_) fun _ _ => J.pure trivial
  exact J.bind (J.tell _) fun _ _ => J.eraseNext c (h b hb) done

/-- Erasing a range erases the blocks of its plan. -/
theorem erase
    (h : ∀ plan, Plan.make c.regions start len exact = .ok plan → ∀ b ∈ plan.blocks,
      J.holds (p.eraseBlock b.function b.start b.size c.size)
        (q.eraseBlock b.function b.start b.size c.size) fun _ => True) :
    J.holds (p.erase c start len exact) (q.erase c start len exact) fun _ => True := by
  refine J.bind (J.checkRange c _ _) fun _ _ => J.bind (J.plan c _ _ _) fun plan hplan => ?_
  refine J.bind (J.quiet.executePlan c fun b hb => ?_) fun _ _ =>
    J.bind (J.word _ _) fun _ _ => J.pure trivial
  rw [Programmer.quiet_eraseBlock, Programmer.quiet_eraseBlock]
  exact h plan hplan b hb

/-- The blocks to update are found among the given ones. -/
theorem blocksToUpdate (image data : Bytes) (start stop : Nat) (blocks : List Block) :
    J.holds (p.blocksToUpdate image data start stop blocks)
      (q.blocksToUpdate image data start stop blocks) fun update => ∀ b ∈ update, b ∈ blocks := by
  refine J.bind (J.fold (fun update => ∀ b ∈ update, b ∈ blocks) nofun ?_) ?_
  · intro update b hb hupdate
    have hunchanged : J.holds (Programmer.unchanged image data start stop b)
        (Programmer.unchanged image data start stop b) fun _ => True := by
      refine J.bind (J.require _) fun current _ => ?_
      split
      · exact J.bind (J.require _) fun _ _ => J.pure trivial
      · exact J.pure trivial
    refine J.bind hunchanged fun stays _ => ?_
    split
    · exact J.bind (J.tell _) fun _ _ => J.pure hupdate
    · refine J.pure fun b' hb' => ?_
      rcases List.mem_cons.mp hb' with rfl | hb'
      · exact hb
      · exact hupdate b' hb'
  · intro update hupdate
    exact J.pure fun b hb => hupdate b (List.mem_reverse.mp hb)

theorem merge (image data : Bytes) (start stop : Nat) (b : Block) :
    J.holds (Programmer.merge image data start stop b)
      (Programmer.merge image data start stop b) fun _ => True :=
  J.bind (J.require _) fun _ _ => J.weaken (J.require _)

section Write

variable
  (hread : ∀ addr piece, J.holds (p.readInto addr piece) (q.readInto addr piece) fun _ => True)
  (hprogram : ∀ addr piece,
    J.holds (p.programPage addr piece) (q.programPage addr piece) fun _ => True)
  (herase : ∀ plan, Plan.make c.regions start data.size false = .ok plan → ∀ b ∈ plan.blocks,
    J.holds (p.eraseBlock b.function b.start b.size c.size)
      (q.eraseBlock b.function b.start b.size c.size) fun _ => True)

include hprogram herase in
theorem wipeByBiggestErases :
    J.holds (p.wipeByBiggestErases c start data) (q.wipeByBiggestErases c start data)
      fun _ => True := by
  refine J.bind (J.word _ _) fun len hlen => ?_
  subst hlen
  refine J.bind (J.plan c _ _ _) fun plan hplan => ?_
  refine J.bind (J.executePlan c (herase plan hplan)) fun _ _ => J.bind (J.progress _) fun _ _ => ?_
  exact J.bind (J.writeChunked c fun _ _ _ _ _ => hprogram _ _) fun _ _ => J.pure trivial

include hprogram in
theorem reprogram (image : Bytes) (written : Nat) (b : Block) :
    J.holds (p.reprogram c image written b) (q.reprogram c image written b) fun _ => True := by
  refine J.bind (J.require _) fun content _ => ?_
  refine J.bind (J.quiet.writeChunked c fun _ _ k _ piece => ?_) fun _ _ =>
    J.bind (J.progress _) fun _ _ => J.pure trivial
  rw [Programmer.quiet_programPage, Programmer.quiet_programPage]
  exact hprogram k.addr piece

include hread hprogram herase in
theorem wipeIfChanges :
    J.holds (p.wipeIfChanges c start data) (q.wipeIfChanges c start data) fun _ => True := by
  refine J.bind (J.word _ _) fun len hlen => ?_
  subst hlen
  refine J.bind (J.plan c _ _ _) fun plan hplan => J.bind (J.checkRange c _ _) fun _ _ => ?_
  refine J.bind (J.readChip c hread) fun image _ => ?_
  refine J.bind (J.blocksToUpdate _ _ _ _ _) fun update hupdate => ?_
  refine J.bind (J.progress _) fun _ _ => ?_
  refine J.bind (J.fold (fun _ => True) trivial fun state b hb _ => ?_) fun state _ => ?_
  · refine J.bind (J.eraseNext c (herase plan hplan b (hupdate b hb)) _) fun _ _ => ?_
    exact J.bind (J.merge _ _ _ _ _) fun _ _ => J.pure trivial
  · refine J.bind (J.progress _) fun _ _ => ?_
    refine J.bind (J.fold (fun _ => True) trivial fun written b _ _ => ?_) fun _ _ => J.pure trivial
    exact J.reprogram c hprogram _ written b

include hread hprogram herase in
/-- A write reads pieces, erases blocks of the plan for its range and programs pieces. -/
theorem write (strategy : Strategy) :
    J.holds (p.write c strategy start data) (q.write c strategy start data) fun _ => True := by
  refine J.bind (J.checkRange c _ _) fun _ _ => ?_
  split
  · exact J.bind (J.progress _) fun _ _ => J.pure trivial
  · have hby : J.holds (p.writeBy c start data strategy) (q.writeBy c start data strategy)
        fun _ => True := by
      cases strategy with
      | wipeIfChanges => exact J.wipeIfChanges c hread hprogram herase
      | wipeByBiggestErases => exact J.wipeByBiggestErases c hprogram herase
    refine J.bind (J.tell _) fun _ _ => J.bind hby fun _ _ => ?_
    exact J.bind (J.progress _) fun _ _ => J.pure trivial

end Write

end Judgment
end NorFlash
