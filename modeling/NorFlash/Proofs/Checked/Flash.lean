import NorFlash.Proofs.Checked.Steps
import NorFlash.Proofs.Writing

namespace NorFlash

/-- The numbers of the chip fit their places, and nothing else is known of them. -/
structure Chip.Words (c : Chip) : Prop where
  size : c.size < addressSpace
  pageSize : c.pageSize < addressSpace
  regions : ∀ r ∈ c.regions, r.Words

namespace Checked

/-- A buffer is shorter than this. -/
def bufferSpace : Nat := 0x8000000000000000

/-- One byte of a buffer. -/
def index (b : Bytes) (i : Nat) : Except Stop UInt8 :=
  if h : i < b.size then .ok b[i] else .error .crashed

/-- The bytes `[lo, hi)` of the buffer replaced by as many others. -/
def replace (b : Bytes) (lo hi : Nat) (part : Bytes) : Except Stop Bytes :=
  if lo ≤ hi ∧ hi ≤ b.size ∧ part.size = hi - lo then .ok (b.overlay lo part) else .error .crashed

variable {σ β : Type} (p : Programmer σ)

def checkRange (c : Chip) (addr len : Nat) : Act σ Stop Unit := do
  let _ ← Act.ofExcept (long (addr + len))
  p.checkRange c addr len

/-- The piece at the cursor, and where the next one begins. -/
def chunkAt (t : Transfer) (cursor : Nat) : Except Stop (Chunk × Nat) := do
  let page ← div cursor t.page
  let after ← long (page + 1)
  let pageStop ← long (after * t.page)
  let left ← sub (min pageStop t.stop) cursor
  let len := min left t.most
  let addr ← word cursor
  let offset ← sub cursor t.start
  let next ← long (cursor + len)
  return (⟨addr, offset, len⟩, next)

def walkFrom (t : Transfer) (f : β → Chunk → Act σ Stop β) (b : β) (cursor : Nat) : Act σ Stop β :=
  if _h : cursor < t.stop then do
    let (k, next) ← Act.ofExcept (chunkAt t cursor)
    let b ← f b k
    if _h' : cursor < next then walkFrom t f b next else Act.fail .crashed
  else pure b
termination_by t.stop - cursor

def walk (start len page most : Nat) (f : β → Chunk → Act σ Stop β) (b : β) : Act σ Stop β := do
  let _ ← Act.ofExcept (long (start + len))
  let t ← Stop.lift (Transfer.of? start len page most)
  walkFrom t f b t.start

def readChunk (buffer : Bytes) (k : Chunk) : Act σ Stop Bytes := do
  p.tell k.notice
  let stop ← Act.ofExcept (long (k.offset + k.len))
  let piece ← Stop.require (Bytes.slice? buffer k.offset stop)
  let reply ← p.readInto k.addr piece
  p.progress (.read stop)
  Act.ofExcept (replace buffer k.offset stop reply)

def readRange (c : Chip) (addr : Nat) (buffer : Bytes) : Act σ Stop Bytes := do
  let len := buffer.size
  checkRange p c addr len
  let most ← Act.read p.maxRead
  p.onError (walk addr len c.pageSize most (readChunk p) buffer) (Programmer.readRangeNotice len)

def readChunked (c : Chip) (addr len : Nat) : Act σ Stop Bytes :=
  readRange p c addr (Bytes.filled len 0)

def readChip (c : Chip) : Act σ Stop Bytes := do
  p.progress (.reading c.size)
  readChunked p c 0 c.size

def writeChunk (data : Bytes) (k : Chunk) : Act σ Stop Unit := do
  p.tell k.notice
  let stop ← Act.ofExcept (long (k.offset + k.len))
  let piece ← Stop.require (Bytes.slice? data k.offset stop)
  p.programPage k.addr piece
  p.progress (.written stop)

def writeChunked (c : Chip) (addr : Nat) (data : Bytes) : Act σ Stop Unit := do
  checkRange p c addr data.size
  let most ← Act.read p.maxWrite
  p.onError (walk addr data.size c.pageSize most (fun _ k => writeChunk p data k) ())
    (Programmer.writeRangeNotice data.size)

def verify (c : Chip) (addr : Nat) (expected : Bytes) : Act σ Stop Verdict := do
  p.progress (.reading expected.size)
  let found ← readChunked p c addr expected.size
  match Bytes.firstDifference? expected found with
  | none => return .agrees
  | some i =>
    let i ← Act.ofExcept (word i)
    let at' ← Act.ofExcept (word (addr + i))
    let wanted ← Act.ofExcept (index expected i)
    let other ← Act.ofExcept (index found i)
    return .differs at' wanted other

def plan (c : Chip) (start len : Nat) (exact : Bool) : Act σ Stop Plan := do
  p.tellAll (Plan.notices c.regions start len)
  Act.ofExcept (make c.regions start len exact)

def eraseNext (c : Chip) (done : Programmer.Erased) (b : Block) :
    Act σ Stop Programmer.Erased := do
  let start ← Act.ofExcept (blockStart b)
  p.eraseBlock b.function start b.size c.size
  let blocks ← Act.ofExcept (long (done.blocks + 1))
  let bytes ← Act.ofExcept (long (done.bytes + b.size))
  p.progress (.erased blocks bytes)
  return ⟨blocks, bytes⟩

def executeBlock (c : Chip) (done : Programmer.Erased) (b : Block) :
    Act σ Stop Programmer.Erased := do
  let _ ← Act.ofExcept (blockStop b)
  p.tell (Programmer.erasingNotice b)
  eraseNext p c done b

def executePlan (c : Chip) (plan : Plan) : Act σ Stop Nat := do
  let start ← Act.ofExcept (planStart plan)
  let bytes ← Act.ofExcept (erasedBytes plan)
  checkRange p c start bytes
  p.progress (.erasing plan.blocks.length bytes)
  let done ← Act.fold (executeBlock p c) {} plan.blocks
  return done.bytes

def erase (c : Chip) (start len : Nat) (exact : Bool) : Act σ Stop (Nat × Nat) := do
  checkRange p c start len
  let plan ← plan p c start len exact
  let _ ← executePlan p.quiet c plan
  let start ← Act.ofExcept (planStart plan)
  let bytes ← Act.ofExcept (erasedBytes plan)
  let bytes ← Act.ofExcept (word bytes)
  return (start, bytes)

def wipeByBiggestErases (c : Chip) (start : Nat) (data : Bytes) : Act σ Stop WriteStats := do
  let len ← Act.ofExcept (word data.size)
  let plan ← plan p c start len false
  let erased ← executePlan p c plan
  p.progress (.writing data.size)
  writeChunked p c start data
  return { erases := plan.blocks.length, erased, written := data.size }

def shareOf (b : Block) (start stop : Nat) : Except Stop (Nat × Nat) := do
  let first ← blockStart b
  let last ← blockStop b
  let lo ← sub (max first start) start
  let hi ← sub (min last stop) start
  return (lo, hi)

def unchanged (image data : Bytes) (start stop : Nat) (b : Block) : Act σ Stop Bool := do
  let (lo, hi) ← Act.ofExcept (shareOf b start stop)
  let first ← Act.ofExcept (blockStart b)
  let last ← Act.ofExcept (blockStop b)
  let current ← Stop.require (Bytes.slice? image first last)
  if start ≤ first && last ≤ stop then
    let wanted ← Stop.require (Bytes.slice? data lo hi)
    return Bytes.same current wanted
  else return false

def sortBlock (image data : Bytes) (start stop : Nat) (update : List Block) (b : Block) :
    Act σ Stop (List Block) := do
  if ← unchanged image data start stop b then
    p.tell (Programmer.unchangedNotice b)
    return update
  else return b :: update

def blocksToUpdate (image data : Bytes) (start stop : Nat) (blocks : List Block) :
    Act σ Stop (List Block) := do
  let update ← Act.fold (sortBlock p image data start stop) [] blocks
  return update.reverse

def merge (image data : Bytes) (start stop : Nat) (b : Block) : Act σ Stop Bytes := do
  let (lo, hi) ← Act.ofExcept (shareOf b start stop)
  let from' ← Act.ofExcept (long (start + lo))
  let len ← Act.ofExcept (sub hi lo)
  let to' ← Act.ofExcept (long (from' + len))
  let part ← Stop.require (Bytes.slice? data lo hi)
  Act.ofExcept (replace image from' to' part)

def refresh (c : Chip) (data : Bytes) (start stop : Nat) (state : Programmer.Erased × Bytes)
    (b : Block) : Act σ Stop (Programmer.Erased × Bytes) := do
  let (done, image) := state
  let done ← eraseNext p c done b
  let image ← merge image data start stop b
  return (done, image)

def reprogram (c : Chip) (image : Bytes) (written : Nat) (b : Block) : Act σ Stop Nat := do
  let first ← Act.ofExcept (blockStart b)
  let last ← Act.ofExcept (blockStop b)
  let content ← Stop.require (Bytes.slice? image first last)
  writeChunked p.quiet c first content
  let written ← Act.ofExcept (long (written + b.size))
  p.progress (.written written)
  return written

def wipeIfChanges (c : Chip) (start : Nat) (data : Bytes) : Act σ Stop WriteStats := do
  let stop ← Act.ofExcept (long (start + data.size))
  let len ← Act.ofExcept (word data.size)
  let plan ← plan p c start len false
  let first ← Act.ofExcept (planStart plan)
  let size ← Act.ofExcept (erasedBytes plan)
  checkRange p c first size
  let image ← readChip p c
  let update ← blocksToUpdate p image data start stop plan.blocks
  let bytes ← Act.ofExcept (long (total (update.map Block.size)))
  p.progress (.erasing update.length bytes)
  let (done, image) ← Act.fold (refresh p c data start stop) ({}, image) update
  p.progress (.writing bytes)
  let written ← Act.fold (reprogram p c image) 0 update
  let skipped ← Act.ofExcept (sub plan.blocks.length update.length)
  return { erases := done.blocks, skipped, erased := done.bytes, written }

def writeBy (c : Chip) (start : Nat) (data : Bytes) : Strategy → Act σ Stop WriteStats
  | .wipeByBiggestErases => wipeByBiggestErases p c start data
  | .wipeIfChanges => wipeIfChanges p c start data

def write (c : Chip) (strategy : Strategy) (start : Nat) (data : Bytes) :
    Act σ Stop WriteStats := do
  checkRange p c start data.size
  if data.size == 0 then
    p.progress (.complete {})
    return {}
  else
    let _ ← Act.ofExcept (long (start + data.size))
    p.tell (Programmer.writingNotice start data strategy)
    let stats ← writeBy p c start data strategy
    p.progress (.complete stats)
    return stats

variable {p} {c : Chip} {addr start len stop : Nat} {buffer data image : Bytes} {b : Block}

theorem index_eq {i : Nat} (h : i < data.size) : index data i = .ok (data.byteAt i) := by
  rw [index, dif_pos h, Bytes.byteAt_of_lt h]

theorem replace_checks {lo hi : Nat} {part : Bytes} (hlo : lo ≤ hi) (hhi : hi ≤ buffer.size)
    (hpart : part.size = hi - lo) :
    Checks p (Act.ofExcept (replace buffer lo hi part))
      (Stop.require (Bytes.overlay? buffer lo part)) fun b => b.size = buffer.size := by
  have hreplace : replace buffer lo hi part = .ok (buffer.overlay lo part) :=
    if_pos ⟨hlo, hhi, hpart⟩
  rw [hreplace, Bytes.overlay?_of_le (by omega)]
  exact fun s => ⟨rfl, .value (Bytes.size_overlay (by omega))⟩

/-- The end of a buffer that is put at an address. -/
theorem add_lt_longSpace (haddr : addr < addressSpace) (hlen : len < bufferSpace) :
    addr + len < longSpace :=
  Nat.lt_trans (Nat.add_lt_add haddr hlen) (by decide)

theorem checkRange_checks (h : addr + len < longSpace) :
    Checks p (checkRange p c addr len) (p.checkRange c addr len) fun _ => addr + len ≤ c.size := by
  refine .finds (long_of_lt h) (.ended fun s => ?_)
  unfold Programmer.checkRange
  split
  case isTrue hin => exact .value (by simpa [Chip.holds] using hin)
  case isFalse => exact .error

/-- The end of the page is a number of 33 bits at most, and the cursor moves on. -/
theorem chunkAt_eq {t : Transfer} {cursor : Nat} (hlo : t.start ≤ cursor) (hhi : cursor < t.stop)
    (hstop : t.stop < addressSpace) (hpage : t.page < addressSpace) :
    chunkAt t cursor = .ok (t.chunkAt cursor, cursor + t.lengthAt cursor) := by
  have hlong : addressSpace + addressSpace < longSpace := by decide
  have hdiv := Nat.div_le_self cursor t.page
  have hedge : (cursor / t.page + 1) * t.page ≤ cursor + t.page := by
    rw [Nat.succ_mul]
    exact Nat.add_le_add_right (Nat.div_mul_le_self _ _) _
  have hafter : cursor ≤ (cursor / t.page + 1) * t.page := by
    rw [Nat.succ_mul]
    exact Nat.le_of_lt (Nat.lt_div_mul_add t.page_pos)
  have hnext := t.lengthAt_inside hhi
  have hsmall : addressSpace = 0x100000000 := rfl
  unfold chunkAt
  rw [div_of_pos t.page_pos, ok_bind, long_of_lt (by omega), ok_bind, long_of_lt (by omega),
    ok_bind, sub_of_le (by omega), ok_bind]
  dsimp only
  rw [word_of_lt (by omega), ok_bind, sub_of_le hlo, ok_bind]
  unfold Transfer.lengthAt at hnext
  rw [long_of_lt (by omega), ok_bind, Transfer.chunkAt, Nat.mod_eq_of_lt (by omega)]
  rfl

/-- Where each piece keeps `inv`, so does the walk over all of them. -/
theorem walkFrom_checks {t : Transfer} {f' f : β → Chunk → Act σ Stop β} (inv : β → Prop)
    (hstop : t.stop < addressSpace) (hpage : t.page < addressSpace)
    (hstep : ∀ a k, inv a → k.Piece t.start (t.stop - t.start) t.page →
      Checks p (f' a k) (f a k) inv) {cursor : Nat} (hlo : t.start ≤ cursor) {a : β} (ha : inv a) :
    Checks p (walkFrom t f' a cursor) (Act.fold f a (t.chunksFrom cursor)) inv := by
  fun_induction Transfer.chunksFrom t cursor generalizing a with
  | case1 cursor h ih =>
    have hpos := t.lengthAt_pos h
    rw [walkFrom, dif_pos h, Act.fold_cons]
    refine .finds (chunkAt_eq hlo h hstop hpage) ?_
    have hpiece : (t.chunkAt cursor).Piece t.start (t.stop - t.start) t.page :=
      Transfer.chunkAt_piece hlo h (by omega) (by omega)
    refine .bind (hstep a _ ha hpiece) fun a' ha' => ?_
    rw [dif_pos (by omega)]
    exact ih (by omega) ha'
  | case2 cursor h =>
    rw [walkFrom, dif_neg h]
    exact .pure ha

theorem walk_checks {page most : Nat} {f' f : β → Chunk → Act σ Stop β} {a : β} (inv : β → Prop)
    (hstop : start + len < addressSpace) (hpage : page < addressSpace) (ha : inv a)
    (hstep : ∀ a k, inv a → k.Piece start len page → Checks p (f' a k) (f a k) inv) :
    Checks p (walk start len page most f' a)
      (Stop.lift (Transfer.of? start len page most) >>= fun t => t.walk f a) inv := by
  refine .finds (long_of_lt (Nat.lt_trans hstop (by decide))) (.bind .lift fun t ht => ?_)
  obtain ⟨rfl, hend, rfl⟩ := Transfer.of?_ok ht
  have hlen : t.stop - t.start = len := by omega
  rw [Transfer.walk_eq_fold]
  exact walkFrom_checks inv (by omega) hpage (hlen ▸ hstep) (Nat.le_refl _) ha

section Operations

variable (hp : p.Replies) (hc : c.Words)
include hp

theorem readChunk_checks {k : Chunk} (hk : k.offset + k.len ≤ buffer.size)
    (hsize : buffer.size < bufferSpace) :
    Checks p (readChunk p buffer k) (p.readChunk buffer k) fun b => b.size = buffer.size := by
  have hslice := Bytes.slice?_of_le (Nat.le_add_right k.offset k.len) hk
  have hpiece := Bytes.size_extract_add hk
  refine .bind (.modify _) fun _ _ => .finds (long_of_lt ?_) ?_
  · exact Nat.lt_of_le_of_lt hk (Nat.lt_trans hsize (by decide))
  rw [hslice]
  refine .bind .require fun piece hpiece' => .bind (hp.readInto _ _) fun reply hreply => ?_
  subst hpiece'
  refine .bind (.modify _) fun _ _ => ?_
  have hlen : reply.size = k.len := hreply.trans hpiece
  exact replace_checks (Nat.le_add_right _ _) hk (by omega)

include hc

theorem readRange_checks (hsize : buffer.size < bufferSpace) (haddr : addr < addressSpace) :
    Checks p (readRange p c addr buffer) (p.readRange c addr buffer) fun b =>
      addr + buffer.size ≤ c.size ∧ b.size = buffer.size := by
  refine .bind (checkRange_checks (add_lt_longSpace haddr hsize)) fun _ hin => ?_
  refine .bind (.read _) fun most _ => .onError ?_ _
  have hstop := Nat.lt_of_le_of_lt hin hc.size
  refine (walk_checks (fun b : Bytes => b.size = buffer.size) hstop hc.pageSize rfl ?_).mono
    fun _ hb => ⟨hin, hb⟩
  intro b k hb hk
  have hinside : k.offset + k.len ≤ b.size := hb ▸ hk.inside
  exact (readChunk_checks hp hinside (hb ▸ hsize)).mono fun _ h => h.trans hb

theorem readChunked_checks (hlen : len < bufferSpace) (haddr : addr < addressSpace) :
    Checks p (readChunked p c addr len) (p.readChunked c addr len) fun b =>
      addr + len ≤ c.size ∧ b.size = len := by
  have hsize : (Bytes.filled len 0).size < bufferSpace := by rwa [Bytes.size_filled]
  have h := readRange_checks hp hc hsize haddr
  rwa [Bytes.size_filled] at h

theorem readChip_checks : Checks p (readChip p c) (p.readChip c) fun b => b.size = c.size :=
  .bind (.modify _) fun _ _ =>
    (readChunked_checks hp hc (Nat.lt_trans hc.size (by decide)) (by decide)).mono fun _ h => h.2

omit hc in
theorem writeChunk_checks {k : Chunk} (hk : k.offset + k.len ≤ data.size)
    (hsize : data.size < bufferSpace) :
    Checks p (writeChunk p data k) (p.writeChunk data k) fun _ => True := by
  have hslice := Bytes.slice?_of_le (Nat.le_add_right k.offset k.len) hk
  refine .bind (.modify _) fun _ _ => .finds (long_of_lt ?_) ?_
  · exact Nat.lt_of_le_of_lt hk (Nat.lt_trans hsize (by decide))
  rw [hslice]
  refine .bind .require fun piece _ => .bind (hp.programPage _ _) fun _ _ => ?_
  exact .modify _

theorem writeChunked_checks (hsize : data.size < bufferSpace) (haddr : addr < addressSpace) :
    Checks p (writeChunked p c addr data) (p.writeChunked c addr data) fun _ => True := by
  refine .bind (checkRange_checks (add_lt_longSpace haddr hsize)) fun _ hin => ?_
  refine .bind (.read _) fun most _ => .onError ?_ _
  have hstop := Nat.lt_of_le_of_lt hin hc.size
  exact walk_checks (fun _ => True) hstop hc.pageSize trivial fun _ k _ hk =>
    writeChunk_checks hp hk.inside hsize

theorem verify_checks (hsize : data.size < bufferSpace) (haddr : addr < addressSpace) :
    Checks p (verify p c addr data) (p.verify c addr data) fun _ => True := by
  refine .bind (.modify _) fun _ _ => .bind (readChunked_checks hp hc hsize haddr) ?_
  rintro found ⟨hin, hfound⟩
  have hlast := hc.size
  cases hdiff : Bytes.firstDifference? data found with
  | none => exact .pure trivial
  | some i =>
    obtain ⟨hi, hi'⟩ := Bytes.firstDifference?_lt hdiff
    refine .finds (word_of_lt (by omega)) (.bind (.word (by omega)) fun at' _ => ?_)
    exact .finds (index_eq hi) (.finds (index_eq hi') (.pure trivial))

end Operations

/-- Blocks that have bytes are no more than the bytes. -/
theorem length_le_total {bs : List Block} (h : ∀ b ∈ bs, 0 < b.size) :
    bs.length ≤ total (bs.map Block.size) := by
  induction bs with
  | nil => exact Nat.le_refl 0
  | cons b bs ih =>
    have hb := h b List.mem_cons_self
    have hrest := ih fun b' hb' => h b' (List.mem_cons_of_mem b hb')
    rw [List.length_cons, List.map_cons, total_cons]
    omega

/-- Blocks that can be counted in words, however many of them are done. -/
structure Countable (bs : List Block) : Prop where
  pos : ∀ b ∈ bs, 0 < b.size
  total_lt : total (bs.map Block.size) < addressSpace

theorem Countable.fits {bs pre post : List Block} (h : Countable bs)
    (hsplit : bs = pre ++ b :: post) :
    (Programmer.Erased.of pre).blocks + 1 < longSpace ∧
      (Programmer.Erased.of pre).bytes + b.size < longSpace := by
  have hlength := length_le_total h.pos
  have htotal := h.total_lt
  have hspace : addressSpace < longSpace := by decide
  rw [hsplit] at hlength htotal
  simp only [List.length_append, List.length_cons, List.map_append, List.map_cons, total_append,
    total_cons] at hlength htotal
  unfold Programmer.Erased.of
  dsimp only
  omega

theorem Countable.sublist {bs cs : List Block} (h : Countable bs) (hcs : cs.Sublist bs) :
    Countable cs :=
  ⟨fun b hb => h.pos b (hcs.subset hb),
    Nat.lt_of_le_of_lt (total_le_of_sublist (hcs.map Block.size)) h.total_lt⟩

section Erasing

variable {plan : Plan} {exact : Bool} (hp : p.Replies) (hc : c.Words)

include hc in
theorem plan_stop_lt (h : plan.Covers c.regions start stop) :
    plan.stop < addressSpace + addressSpace := by
  obtain ⟨b, hb, hstop⟩ := h.stop_eq
  rw [hstop]
  exact block_stop_lt hc.regions (h.within b (List.mem_of_getLast? hb))

/-- The blocks of a plan that lies in the chip can be counted. -/
theorem countable_of_covers (hc : c.Words) (h : plan.Covers c.regions start stop)
    (hin : plan.start + plan.erasedBytes ≤ c.size) : Countable plan.blocks := by
  refine ⟨fun b hb => (h.within b hb).size_pos, ?_⟩
  have hlast := hc.size
  rw [← h.erasedBytes_eq]
  omega

include hc in
theorem plan_checks (h : start + len < addressSpace) :
    Checks p (Checked.plan p c start len exact) (p.plan c start len exact) fun plan =>
      Plan.make c.regions start len exact = .ok plan := by
  refine .bind (.modify _) fun _ _ => ?_
  rw [make_eq hc.regions h]
  exact .lift

include hp hc

theorem eraseNext_checks {pre : List Block} {done : Programmer.Erased}
    (hdone : done = Programmer.Erased.of pre) (hb : b.Within c.regions)
    (hfits : (Programmer.Erased.of pre).blocks + 1 < longSpace ∧
      (Programmer.Erased.of pre).bytes + b.size < longSpace) :
    Checks p (eraseNext p c done b) (p.eraseNext c done b) fun done' =>
      done' = Programmer.Erased.of (pre ++ [b]) := by
  subst hdone
  refine .finds (blockStart_eq hc.regions hb) (.bind (hp.eraseBlock _ _ _ _) fun _ _ => ?_)
  refine .finds (long_of_lt hfits.1) (.finds (long_of_lt hfits.2) ?_)
  refine .bind (.modify _) fun _ _ => .pure ?_
  rw [Programmer.Erased.of_snoc]

theorem executePlan_checks (h : plan.Covers c.regions start stop) :
    Checks p (executePlan p c plan) (p.executePlan c plan) fun _ =>
      plan.start + plan.erasedBytes ≤ c.size := by
  have hstop := plan_stop_lt hc h
  have hlong : plan.start + plan.erasedBytes < longSpace := by
    have hlt := h.start_lt_stop
    unfold addressSpace at hstop
    unfold Plan.erasedBytes longSpace
    omega
  refine .finds (planStart_eq hc.regions h) (.finds (erasedBytes_eq hc.regions h) ?_)
  refine .bind (checkRange_checks hlong) fun _ hin => .bind (.modify _) fun _ _ => ?_
  have hcount := countable_of_covers hc h hin
  refine .bind (.fold (fun pre done => done = Programmer.Erased.of pre) rfl ?_) fun _ _ =>
    .pure hin
  intro pre b post done hsplit hdone
  have hb : b.Within c.regions := h.within b (by simp [hsplit])
  refine .finds (blockStop_eq hc.regions hb) (.bind (.modify _) fun _ _ => ?_)
  exact eraseNext_checks hp hc hdone hb (hcount.fits hsplit)

theorem erase_checks (hstart : start < addressSpace) (hlen : len < addressSpace) :
    Checks p (erase p c start len exact) (p.erase c start len exact) fun _ => True := by
  have hlen' : len < bufferSpace := Nat.lt_trans hlen (by decide)
  refine .bind (checkRange_checks (add_lt_longSpace hstart hlen')) fun _ hin => ?_
  have hlast := hc.size
  refine .bind (plan_checks hc (by omega)) fun plan hplan => ?_
  have hcovers := Plan.make_covers hplan
  refine .bind (.of_quiet (executePlan_checks hp.quiet hc hcovers)) fun _ hinside => ?_
  refine .finds (planStart_eq hc.regions hcovers) (.finds (erasedBytes_eq hc.regions hcovers) ?_)
  exact .bind (.word (by omega)) fun _ _ => .pure trivial

end Erasing

section Writing

variable {plan : Plan} (hp : p.Replies) (hc : c.Words)

include hp hc in
theorem wipeByBiggestErases_checks (hin : start + data.size ≤ c.size) :
    Checks p (wipeByBiggestErases p c start data) (p.wipeByBiggestErases c start data)
      fun _ => True := by
  have hlast := hc.size
  have hbuffer : data.size < bufferSpace :=
    Nat.lt_of_le_of_lt (Nat.le_trans (Nat.le_add_left _ _) hin) (Nat.lt_trans hlast (by decide))
  refine .bind (.word (by omega)) fun len hlen => ?_
  subst hlen
  refine .bind (plan_checks hc (by omega)) fun plan hplan => ?_
  refine .bind (executePlan_checks hp hc (Plan.make_covers hplan)) fun _ _ => ?_
  refine .bind (.modify _) fun _ _ => ?_
  exact .bind (writeChunked_checks hp hc hbuffer (by omega)) fun _ _ => .pure trivial

include hc in
theorem shareOf_eq (hb : b.Within c.regions) (hafter : start < b.stop) (h : start ≤ stop) :
    shareOf b start stop = .ok (Programmer.shareOf b start stop) := by
  unfold shareOf
  rw [blockStart_eq hc.regions hb, ok_bind, blockStop_eq hc.regions hb, ok_bind,
    sub_of_le (Nat.le_max_right _ _), ok_bind, sub_of_le (by omega), ok_bind]
  rfl

/-- What is known of a block that the range and the image of the chip have to do with. -/
structure Placed (c : Chip) (image data : Bytes) (start : Nat) (b : Block) : Prop where
  within : b.Within c.regions
  before : b.start < start + data.size
  after : start < b.stop
  inside : b.stop ≤ image.size
  range : start + data.size ≤ image.size

include hc in
theorem unchanged_checks (h : Placed c image data start b) :
    Checks p (unchanged image data start (start + data.size) b)
      (Programmer.unchanged image data start (start + data.size) b) fun _ => True := by
  have hlt := h.within.start_lt_stop
  have hbefore := h.before
  have hafter := h.after
  have hshare := shareOf_eq hc h.within hafter (Nat.le_add_right start data.size)
  refine .finds hshare (.finds (blockStart_eq hc.regions h.within)
    (.finds (blockStop_eq hc.regions h.within) ?_))
  unfold Programmer.unchanged Programmer.shareOf
  dsimp only
  rw [Bytes.slice?_of_le (Nat.le_of_lt hlt) h.inside]
  refine .bind .require fun current _ => ?_
  split
  case isTrue =>
    have hdata : min b.stop (start + data.size) - start ≤ data.size := by omega
    have hshares : max b.start start - start ≤ min b.stop (start + data.size) - start := by omega
    rw [Bytes.slice?_of_le hshares hdata]
    exact .bind .require fun _ _ => .pure trivial
  case isFalse => exact .pure trivial

include hc in
/-- The blocks to update are blocks of the plan, each at most once. -/
theorem blocksToUpdate_checks {blocks : List Block}
    (h : ∀ b ∈ blocks, Placed c image data start b) :
    Checks p (blocksToUpdate p image data start (start + data.size) blocks)
      (p.blocksToUpdate image data start (start + data.size) blocks) fun update =>
        update.Sublist blocks := by
  refine .bind (.fold (fun pre update => update.reverse.Sublist pre) (List.Sublist.refl []) ?_)
    fun update hupdate => .pure hupdate
  intro pre b post update hsplit hupdate
  refine .bind (unchanged_checks hc (h b (by simp [hsplit]))) fun stays _ => ?_
  split
  · exact .bind (.modify _) fun _ _ => .pure (hupdate.trans (List.sublist_append_left _ _))
  · refine .pure ?_
    rw [List.reverse_cons]
    exact hupdate.append (List.Sublist.refl [b])

include hc in
theorem merge_checks (hsize : image.size < addressSpace) (h : Placed c image data start b) :
    Checks p (merge image data start (start + data.size) b)
      (Programmer.merge image data start (start + data.size) b) fun image' =>
        image'.size = image.size := by
  have hlt := h.within.start_lt_stop
  have hbefore := h.before
  have hafter := h.after
  have hrange := h.range
  have hlong : addressSpace < longSpace := by decide
  refine .finds (shareOf_eq hc h.within hafter (Nat.le_add_right start data.size)) ?_
  unfold Programmer.merge Programmer.shareOf
  dsimp only
  generalize hlo : max b.start start - start = lo
  generalize hhi : min b.stop (start + data.size) - start = hi
  refine .finds (long_of_lt (by omega)) (.finds (sub_of_le (by omega)) ?_)
  refine .finds (long_of_lt (by omega)) ?_
  rw [Bytes.slice?_of_le (by omega) (by omega)]
  refine .bind .require fun part hpart => ?_
  have hlen : part.size = hi - lo := hpart ▸ Bytes.size_extract_of_le (by omega)
  exact replace_checks (by omega) (by omega) (by omega)

theorem placed_of_covers (h : plan.Covers c.regions start (start + data.size))
    (hb : b ∈ plan.blocks)
    (hinside : plan.start + plan.erasedBytes ≤ c.size) (hin : start + data.size ≤ c.size)
    (himage : image.size = c.size) : Placed c image data start b := by
  have hmeets := h.meets hb
  have hstop := h.stop_le_of_mem hb
  have hlt := h.start_lt_stop
  unfold Plan.erasedBytes at hinside
  exact ⟨h.within b hb, hmeets.1, hmeets.2, by omega, by omega⟩

include hp hc in
theorem refresh_checks {pre : List Block} {done : Programmer.Erased}
    (hdone : done = Programmer.Erased.of pre)
    (hfits : (Programmer.Erased.of pre).blocks + 1 < longSpace ∧
      (Programmer.Erased.of pre).bytes + b.size < longSpace)
    (hsize : image.size = c.size) (h : Placed c image data start b) :
    Checks p (refresh p c data start (start + data.size) (done, image) b)
      (p.refresh c data start (start + data.size) (done, image) b) fun state =>
        state.1 = Programmer.Erased.of (pre ++ [b]) ∧ state.2.size = c.size := by
  have himage : image.size < addressSpace := hsize ▸ hc.size
  refine .bind (eraseNext_checks hp hc hdone h.within hfits) fun done' hdone' => ?_
  refine .bind (merge_checks hc himage h) fun image' himage' => ?_
  exact .pure ⟨hdone', himage'.trans hsize⟩

include hp hc in
theorem reprogram_checks {written : Nat} (hb : b.Within c.regions) (hin : b.stop ≤ image.size)
    (hwritten : written + b.size < longSpace) :
    Checks p (reprogram p c image written b) (p.reprogram c image written b) fun written' =>
      written' = written + b.size := by
  have hstart : b.start < addressSpace := hb.start_eq ▸ hb.fits
  have hsize : b.size < addressSpace := (hc.regions _ hb.region).blockSize
  refine .finds (blockStart_eq hc.regions hb) (.finds (blockStop_eq hc.regions hb) ?_)
  unfold Programmer.reprogram
  rw [Bytes.slice?_of_le (Nat.le_of_lt hb.start_lt_stop) hin]
  refine .bind .require fun content hcontent => ?_
  have hlen : content.size = b.size := by
    rw [hcontent, Bytes.size_extract_of_le hin, Block.stop, Nat.add_sub_cancel_left]
  have hbuffer : content.size < bufferSpace := hlen ▸ Nat.lt_trans hsize (by decide)
  refine .bind (.of_quiet (writeChunked_checks hp.quiet hc hbuffer hstart)) fun _ _ => ?_
  exact .finds (long_of_lt hwritten) (.bind (.modify _) fun _ _ => .pure rfl)

include hp hc in
theorem wipeIfChanges_checks (hin : start + data.size ≤ c.size) :
    Checks p (wipeIfChanges p c start data) (p.wipeIfChanges c start data) fun _ => True := by
  have hlast := hc.size
  have hlong : addressSpace + addressSpace < longSpace := by decide
  refine .finds (long_of_lt (by omega)) (.bind (.word (by omega)) fun len hlen => ?_)
  subst hlen
  refine .bind (plan_checks hc (by omega)) fun plan hplan => ?_
  have hcovers := Plan.make_covers hplan
  have hstop := plan_stop_lt hc hcovers
  have hlt := hcovers.start_lt_stop
  refine .finds (planStart_eq hc.regions hcovers) (.finds (erasedBytes_eq hc.regions hcovers) ?_)
  refine .bind (checkRange_checks (by unfold Plan.erasedBytes; omega)) fun _ hinside => ?_
  have hcount := countable_of_covers hc hcovers hinside
  refine .bind (readChip_checks hp hc) fun image himage => ?_
  refine .bind (blocksToUpdate_checks hc fun b hb =>
    placed_of_covers hcovers hb hinside hin himage) fun update hupdate => ?_
  have hcount' := hcount.sublist hupdate
  refine .finds (long_of_lt (Nat.lt_trans hcount'.total_lt (by decide))) ?_
  refine .bind (.modify _) fun _ _ => .bind (.fold (fun pre (state : Programmer.Erased × Bytes) =>
    state.1 = Programmer.Erased.of pre ∧ state.2.size = c.size) ⟨rfl, himage⟩ ?_) ?_
  · rintro pre b post ⟨done, image'⟩ hsplit ⟨hdone, himage'⟩
    have hb : b ∈ plan.blocks := hupdate.subset (by simp [hsplit])
    exact refresh_checks hp hc hdone (hcount'.fits hsplit) himage'
      (placed_of_covers hcovers hb hinside hin himage')
  rintro ⟨done, image'⟩ ⟨_, himage'⟩
  refine .bind (.modify _) fun _ _ => .bind (.fold (fun pre written =>
    written = (Programmer.Erased.of pre).bytes) rfl ?_) fun written _ => ?_
  · intro pre b post written hsplit hwritten
    have hb : b ∈ plan.blocks := hupdate.subset (by simp [hsplit])
    have hplaced : Placed c image' data start b :=
      placed_of_covers hcovers hb hinside hin himage'
    have hfits := (hcount'.fits hsplit).2
    rw [← hwritten] at hfits
    refine (reprogram_checks hp hc hplaced.within hplaced.inside hfits).mono fun _ h => ?_
    rw [h, hwritten, Programmer.Erased.of_snoc]
  exact .finds (sub_of_le hupdate.length_le) (.pure trivial)

include hp hc in
theorem write_checks {strategy : Strategy} (hsize : data.size < bufferSpace)
    (hstart : start < addressSpace) :
    Checks p (write p c strategy start data) (p.write c strategy start data) fun _ => True := by
  have hlong : start + data.size < longSpace := add_lt_longSpace hstart hsize
  refine .bind (checkRange_checks hlong) fun _ hin => ?_
  split
  · exact .bind (.modify _) fun _ _ => .pure trivial
  · refine .finds (long_of_lt hlong) (.bind (.modify _) fun _ _ => ?_)
    refine .bind (q := fun _ => True) ?_ fun _ _ => .bind (.modify _) fun _ _ => .pure trivial
    cases strategy with
    | wipeIfChanges => exact wipeIfChanges_checks hp hc hin
    | wipeByBiggestErases => exact wipeByBiggestErases_checks hp hc hin

end Writing

/-- Whatever the chip, the replies and the limits: each operation on a range does what it does when
it looks at every number, index and difference on the way, and it ends with a value, with an error,
or in a wait for the chip. -/
theorem never_crashes (hp : p.Replies) (hc : c.Words) (hstart : start < addressSpace)
    (hsize : data.size < bufferSpace) :
    (∀ strategy, Checks p (write p c strategy start data) (p.write c strategy start data)
      fun _ => True) ∧
    (∀ len exact, len < addressSpace →
      Checks p (erase p c start len exact) (p.erase c start len exact) fun _ => True) ∧
    Checks p (readRange p c start data) (p.readRange c start data) (fun _ => True) ∧
    Checks p (writeChunked p c start data) (p.writeChunked c start data) (fun _ => True) ∧
    Checks p (verify p c start data) (p.verify c start data) (fun _ => True) :=
  ⟨fun _ => write_checks hp hc hsize hstart, fun _ _ hlen => erase_checks hp hc hstart hlen,
    (readRange_checks hp hc hsize hstart).mono fun _ _ => trivial,
    writeChunked_checks hp hc hsize hstart, verify_checks hp hc hsize hstart⟩

/-- Gives the same reply to every command. -/
def parrot (reply : Bytes) : Programmer Unit where
  maxRead _ := 7
  maxWrite _ := 3
  execute _ := pure reply
  delay _ s := s
  report _ s := s
  note _ s := s

/-- A chip without pages, with blocks that reach beyond its end and beyond the last address. -/
def oddChip : Chip :=
  { Chip.sample with
    size := 0xFFFFFFFF
    pageSize := 0
    regions := [⟨0xFFFFFFFF, 0xFFFFFFFF, 0xFFFFFFFF, .erase20⟩, ⟨7, 0xFFFFFFFE, 2, .eraseD8⟩,
      ⟨0, 0, 0xFFFFFFFF, .erase52⟩] }

/-- The only plan for a range at the end of that chip reaches beyond it, and is refused. -/
theorem never_crashes_odd :
    let p := parrot (Bytes.filled 1 2)
    let data := Bytes.filled 5 0
    (∀ strategy, Checks p (write p oddChip strategy 0xFFFFFFF0 data)
      (p.write oddChip strategy 0xFFFFFFF0 data) fun _ => True) ∧
    (write p oddChip .wipeByBiggestErases 0xFFFFFFF0 data ()).1 =
      .error (.error .addressOutOfBounds) := by
  intro p data
  have hp : p.Replies := by
    constructor <;> exact fun ⟨_, _, h⟩ => nomatch h
  have hc : oddChip.Words := by
    refine ⟨by decide, by decide, fun r hr => ?_⟩
    simp only [oddChip, List.mem_cons, List.not_mem_nil, or_false] at hr
    rcases hr with rfl | rfl | rfl <;> exact ⟨by decide, by decide, by decide⟩
  have hsize : data.size < bufferSpace := by
    rw [Bytes.size_filled]
    decide
  have hstart : 0xFFFFFFF0 < addressSpace := by decide
  have h := (never_crashes hp hc hstart hsize).1
  refine ⟨h, ?_⟩
  rw [(h .wipeByBiggestErases ()).1]
  cbv

end Checked
end NorFlash
