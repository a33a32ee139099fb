import NorFlash.Programmer
import NorFlash.Proofs.Covering

namespace NorFlash

/-- The numbers of the region fit their places, and nothing else is known of them. -/
structure Region.Words (r : Region) : Prop where
  start : r.start < addressSpace
  blockSize : r.blockSize < addressSpace
  blockCount : r.blockCount < addressSpace

namespace Checked

/-- The number, in a place that has so many values. -/
def fit (values n : Nat) : Except Stop Nat := if n < values then .ok n else .error .crashed

def word (n : Nat) : Except Stop Nat := fit addressSpace n

def longSpace : Nat := 0x10000000000000000

def long (n : Nat) : Except Stop Nat := fit longSpace n

def sub (m n : Nat) : Except Stop Nat := if n ≤ m then .ok (m - n) else .error .crashed

def div (m n : Nat) : Except Stop Nat := if n = 0 then .error .crashed else .ok (m / n)

variable {m n : Nat}

theorem word_of_lt (h : n < addressSpace) : word n = .ok n := if_pos h

theorem long_of_lt (h : n < longSpace) : long n = .ok n := if_pos h

theorem sub_of_le (h : n ≤ m) : sub m n = .ok (m - n) := if_pos h

theorem div_of_pos (h : 0 < n) : div m n = .ok (m / n) := if_neg (Nat.ne_of_gt h)

def regionStop (r : Region) : Except Stop Nat := do
  let length ← long (r.blockSize * r.blockCount)
  long (r.start + length)

def indexAt (r : Region) (addr : Nat) : Except Stop (Option Nat) :=
  if r.active && r.start ≤ addr then do
    let stop ← regionStop r
    if addr < stop then
      let offset ← sub addr r.start
      let index ← div offset r.blockSize
      return some index
    else return none
  else return none

def addressOf (r : Region) (index : Nat) : Except Stop Nat := do
  let offset ← long (index * r.blockSize)
  long (r.start + offset)

def indexStartingAt (r : Region) (addr : Nat) : Except Stop (Option Nat) := do
  match ← indexAt r addr with
  | none => return none
  | some index =>
    let start ← addressOf r index
    return if start == addr then some index else none

def blockStart (b : Block) : Except Stop Nat := do
  let start ← addressOf b.region b.index
  word start

def blockStop (b : Block) : Except Stop Nat := do
  let start ← blockStart b
  long (start + b.size)

def blockHolding (addr : Nat) (r : Region) : Except Stop (Option Block) :=
  if addr < addressSpace then do
    let index ← indexAt r addr
    return index.map fun i => ⟨r, i⟩
  else return none

def blockFrom (addr : Nat) (r : Region) : Except Stop (Option Block) :=
  if addr < addressSpace then do
    let index ← indexStartingAt r addr
    return index.map fun i => ⟨r, i⟩
  else return none

/-- What is found in the regions, in each one thing at most. -/
def gather {α : Type} (find : Region → Except Stop (Option α)) : List Region → Except Stop (List α)
  | [] => return []
  | r :: rs => do
    let found ← find r
    let rest ← gather find rs
    return found.toList ++ rest

/-- The block around the start with the bytes that it wastes. -/
def headIn (start stop : Nat) (r : Region) : Except Stop (Option (Nat × Block)) := do
  match ← blockHolding start r with
  | none => return none
  | some b =>
    let first ← blockStart b
    let before ← sub start first
    let last ← blockStop b
    let waste ← long (before + (last - stop))
    return some (waste, b)

def middleIn (cursor stop : Nat) (r : Region) : Except Stop (Option Block) := do
  match ← blockFrom cursor r with
  | none => return none
  | some b =>
    let last ← blockStop b
    return if last ≤ stop then some b else none

def enclosingIn (start stop : Nat) (r : Region) : Except Stop (Option Block) := do
  match ← blockHolding start r with
  | none => return none
  | some b =>
    let first ← blockStart b
    let last ← blockStop b
    return if first ≤ start && stop ≤ last then some b else none

def selectHead (regions : List Region) (start stop : Nat) : Except Stop (Option Block) := do
  let found ← gather (headIn start stop) regions
  return (Plan.best? (fun y b => y.1 < b.1 || y.1 == b.1 && b.2.size < y.2.size) found).map Prod.snd

def selectMiddle (regions : List Region) (cursor stop : Nat) : Except Stop (Option Block) := do
  let found ← gather (middleIn cursor stop) regions
  return Plan.best? (fun y b => b.size < y.size) found

def selectTail (regions : List Region) (cursor : Nat) : Except Stop (Option Block) := do
  let found ← gather (blockFrom cursor) regions
  return Plan.best? (fun y b => y.size < b.size) found

def selectEnclosing (regions : List Region) (start stop : Nat) : Except Stop (Option Block) := do
  let found ← gather (enclosingIn start stop) regions
  return Plan.best? (fun y b => y.size < b.size) found

/-- The blocks of the middle phase, and where the cursor stands behind them. -/
def middleBlocks (regions : List Region) (stop cursor : Nat) : Except Stop (List Block × Nat) :=
  if _h : cursor < stop then do
    match ← selectMiddle regions cursor stop with
    | none => return ([], cursor)
    | some b =>
      let next ← blockStop b
      if _h' : cursor < next then
        let (bs, cursor) ← middleBlocks regions stop next
        return (b :: bs, cursor)
      else .error .crashed
  else return ([], cursor)
termination_by stop - cursor

/-- The refusal of an address, which is narrowed before it is known to be needed. -/
def uncovered (addr : Nat) : Except Stop Stop := do
  let addr ← word addr
  return .error (.noCoverage addr)

def phases (regions : List Region) (start stop : Nat) : Except Stop (List Block) := do
  let refusal ← uncovered start
  match ← selectHead regions start stop with
  | none => .error refusal
  | some head =>
    let headStop ← blockStop head
    let (middle, cursor) ← middleBlocks regions stop headStop
    if stop ≤ cursor then return head :: middle
    else
      let refusal ← uncovered cursor
      match ← selectTail regions cursor with
      | none => .error refusal
      | some tail =>
        let tailStop ← blockStop tail
        if tailStop < stop then .error (← uncovered tailStop)
        else return head :: middle ++ [tail]

def coveringBlocks (regions : List Region) (start stop : Nat) : Except Stop (List Block) :=
  match phases regions start stop with
  | .ok bs => .ok bs
  | .error (.error e) => do
    match ← selectEnclosing regions start stop with
    | some b => return [b]
    | none => .error (.error e)
  | .error other => .error other

def planStart (plan : Plan) : Except Stop Nat :=
  match plan.blocks.head? with
  | none => return 0
  | some b => blockStart b

def planStop (plan : Plan) : Except Stop Nat :=
  match plan.blocks.getLast? with
  | none => return 0
  | some b => blockStop b

def erasedBytes (plan : Plan) : Except Stop Nat := do
  let stop ← planStop plan
  let start ← planStart plan
  sub stop start

def make (regions : List Region) (start len : Nat) (exact : Bool) : Except Stop Plan :=
  if len == 0 then .error (.error .invalidArgument)
  else do
    let stop ← long (start + len)
    let plan := Plan.mk (← coveringBlocks regions start stop)
    let first ← planStart plan
    let last ← planStop plan
    if exact && !(first == start && last == stop) then
      let last ← word (min last (addressSpace - 1))
      .error (.error (.notExact first last))
    else return plan

theorem ok_bind {α β : Type} (a : α) (f : α → Except Stop β) : (Except.ok a >>= f) = f a := rfl

variable {r : Region} {regions : List Region} {b : Block} {addr start stop len cursor : Nat}

/-- A region ends below the last number of 64 bits. -/
theorem stop_lt (h : r.Words) : r.stop < longSpace := by
  have hproduct : r.blockSize * r.blockCount ≤ 0xFFFFFFFF * 0xFFFFFFFF :=
    Nat.mul_le_mul (Nat.le_of_lt_succ h.blockSize) (Nat.le_of_lt_succ h.blockCount)
  have hstart := h.start
  unfold addressSpace at hstart
  unfold Region.stop longSpace
  omega

theorem regionStop_eq (h : r.Words) : regionStop r = .ok r.stop := by
  have hstop := stop_lt h
  unfold Region.stop at hstop
  unfold regionStop
  rw [long_of_lt (by omega), ok_bind]
  exact long_of_lt hstop

theorem indexAt_eq (h : r.Words) : indexAt r addr = .ok (r.blockIndexAt? addr) := by
  unfold indexAt Region.blockIndexAt?
  by_cases hlo : (r.active && decide (r.start ≤ addr)) = true
  · obtain ⟨hactive, hstart⟩ := Bool.and_eq_true_iff.mp hlo
    rw [if_pos hlo, hlo, regionStop_eq h, ok_bind]
    by_cases hhi : addr < r.stop
    · rw [if_pos hhi, sub_of_le (of_decide_eq_true hstart), ok_bind,
        div_of_pos (Region.blockSize_pos hactive), decide_eq_true hhi]
      rfl
    · rw [if_neg hhi, decide_eq_false hhi]
      rfl
  · rw [if_neg hlo, eq_false_of_ne_true hlo]
    rfl

/-- An address inside the region. -/
theorem addressOf_eq (h : r.Words) {i : Nat} (hi : i < r.blockCount) :
    addressOf r i = .ok (r.start + i * r.blockSize) := by
  have hstop := stop_lt h
  have hle : i * r.blockSize ≤ r.blockCount * r.blockSize :=
    Nat.mul_le_mul_right _ (Nat.le_of_lt hi)
  unfold Region.stop at hstop
  rw [Nat.mul_comm r.blockCount] at hle
  unfold addressOf
  rw [long_of_lt (by omega), ok_bind]
  exact long_of_lt (by omega)

theorem indexStartingAt_eq (h : r.Words) :
    indexStartingAt r addr = .ok (r.blockIndexStartingAt? addr) := by
  unfold indexStartingAt Region.blockIndexStartingAt?
  rw [indexAt_eq h, ok_bind]
  cases hi : r.blockIndexAt? addr with
  | none => rfl
  | some i =>
    obtain ⟨_, hcount, _⟩ := Region.blockIndexAt?_some hi
    dsimp only
    rw [addressOf_eq h hcount, ok_bind, Option.filter_some]
    rfl

theorem blockHolding_eq (h : r.Words) : blockHolding addr r = .ok (r.blockHolding? addr) := by
  unfold blockHolding Region.blockHolding?
  rw [indexAt_eq h, ok_bind]
  split <;> rfl

theorem blockFrom_eq (h : r.Words) : blockFrom addr r = .ok (r.blockFrom? addr) := by
  unfold blockFrom Region.blockFrom?
  rw [indexStartingAt_eq h, ok_bind]
  split <;> rfl

section Table

variable (hw : ∀ r ∈ regions, r.Words)
include hw

theorem blockStart_eq (hb : b.Within regions) : blockStart b = .ok b.start := by
  unfold blockStart
  rw [addressOf_eq (hw _ hb.region) hb.index, ok_bind, hb.start_eq]
  exact word_of_lt hb.fits

theorem block_stop_lt (hb : b.Within regions) : b.stop < addressSpace + addressSpace :=
  Nat.add_lt_add (hb.start_eq ▸ hb.fits) (hw _ hb.region).blockSize

theorem blockStop_eq (hb : b.Within regions) : blockStop b = .ok b.stop := by
  have hstop := block_stop_lt hw hb
  unfold addressSpace at hstop
  unfold blockStop
  rw [blockStart_eq hw hb, ok_bind]
  exact long_of_lt (by unfold longSpace; exact Nat.lt_trans hstop (by decide))

omit hw in
theorem gather_eq {α : Type} {find : Region → Except Stop (Option α)} {g : Region → Option α}
    (h : ∀ r ∈ regions, find r = .ok (g r)) : gather find regions = .ok (regions.filterMap g) := by
  induction regions with
  | nil => rfl
  | cons r rs ih =>
    rw [gather, h r List.mem_cons_self, ok_bind, ih fun r hr => h r (List.mem_cons_of_mem _ hr),
      ok_bind, List.filterMap_cons]
    cases g r <;> rfl

theorem headIn_eq (hr : r ∈ regions) : headIn start stop r =
    .ok ((r.blockHolding? start).map fun b => (Plan.waste start stop b, b)) := by
  unfold headIn
  rw [blockHolding_eq (hw r hr), ok_bind]
  cases hb : r.blockHolding? start with
  | none => rfl
  | some b =>
    obtain ⟨hwithin, hlo, hhi⟩ := Region.blockHolding?_some hr hb
    have hstop := block_stop_lt hw hwithin
    unfold addressSpace at hstop
    dsimp only
    rw [blockStart_eq hw hwithin, ok_bind, sub_of_le hlo, ok_bind, blockStop_eq hw hwithin, ok_bind,
      long_of_lt (by unfold longSpace; omega)]
    rfl

theorem middleIn_eq (hr : r ∈ regions) : middleIn cursor stop r =
    .ok ((r.blockFrom? cursor).filter fun b => b.stop ≤ stop) := by
  unfold middleIn
  rw [blockFrom_eq (hw r hr), ok_bind]
  cases hb : r.blockFrom? cursor with
  | none => rfl
  | some b =>
    dsimp only
    rw [blockStop_eq hw (Region.blockFrom?_some hr hb).1, ok_bind, Option.filter_some]
    simp only [decide_eq_true_eq]
    rfl

theorem enclosingIn_eq (hr : r ∈ regions) : enclosingIn start stop r =
    .ok ((r.blockHolding? start).filter (·.encloses start stop)) := by
  unfold enclosingIn
  rw [blockHolding_eq (hw r hr), ok_bind]
  cases hb : r.blockHolding? start with
  | none => rfl
  | some b =>
    have hwithin := (Region.blockHolding?_some hr hb).1
    dsimp only
    rw [blockStart_eq hw hwithin, ok_bind, blockStop_eq hw hwithin, ok_bind, Option.filter_some]
    rfl

omit hw in
/-- To choose by a value that is kept with each thing is to choose by the value of the thing. -/
theorem best?_map {α β : Type} (f : α → β) (beats : β → β → Bool) (xs : List α) :
    Plan.best? beats (xs.map f) = (Plan.best? (fun y b => beats (f y) (f b)) xs).map f := by
  cases xs with
  | nil => rfl
  | cons x xs =>
    rw [List.map_cons, Plan.best?, Plan.best?, Option.map_some, List.foldl_map]
    refine congrArg some ?_
    induction xs generalizing x with
    | nil => rfl
    | cons y ys ih =>
      rw [List.foldl_cons, List.foldl_cons, ← ih]
      split <;> rfl

theorem selectHead_eq :
    selectHead regions start stop = .ok (Plan.selectHead regions start stop) := by
  unfold selectHead
  rw [gather_eq fun r hr => headIn_eq hw hr, ok_bind, ← List.map_filterMap, best?_map,
    Option.map_map]
  exact congrArg Except.ok Option.map_id'

theorem selectMiddle_eq :
    selectMiddle regions cursor stop = .ok (Plan.selectMiddle regions cursor stop) := by
  unfold selectMiddle
  rw [gather_eq fun r hr => middleIn_eq hw hr, ok_bind, ← List.filter_filterMap]
  rfl

theorem selectTail_eq : selectTail regions cursor = .ok (Plan.selectTail regions cursor) := by
  unfold selectTail
  rw [gather_eq fun r hr => blockFrom_eq (hw r hr), ok_bind]
  rfl

theorem selectEnclosing_eq :
    selectEnclosing regions start stop = .ok (Plan.selectEnclosing regions start stop) := by
  unfold selectEnclosing
  rw [gather_eq fun r hr => enclosingIn_eq hw hr, ok_bind, ← List.filter_filterMap]
  rfl

/-- The cursor moves on with each block, and it gets no further than the end of the range. -/
theorem middleBlocks_eq : middleBlocks regions stop cursor =
    .ok (Plan.middleBlocks regions stop cursor,
      Plan.cursorAfter cursor (Plan.middleBlocks regions stop cursor)) := by
  fun_induction Plan.middleBlocks regions stop cursor with
  | case1 cursor hlt b hb ih =>
    have hnext := (Plan.selectMiddle_stop hb).1
    rw [middleBlocks, dif_pos hlt, selectMiddle_eq hw, ok_bind, hb]
    dsimp only
    rw [blockStop_eq hw (Plan.selectMiddle_some hb).1, ok_bind, dif_pos hnext, ih, ok_bind,
      Plan.cursorAfter_cons]
    rfl
  | case2 cursor hlt hnone =>
    rw [middleBlocks, dif_pos hlt, selectMiddle_eq hw, ok_bind, hnone]
    rfl
  | case3 cursor hge =>
    rw [middleBlocks, dif_neg hge]
    rfl

omit hw in
theorem uncovered_eq (h : addr < addressSpace) :
    uncovered addr = .ok (.error (Plan.coverageError addr)) := by
  unfold uncovered
  rw [word_of_lt h, ok_bind, Plan.coverageError, Nat.mod_eq_of_lt h]
  rfl

theorem phases_eq (hs : start < stop) (h : stop < addressSpace) :
    phases regions start stop = (Plan.phases regions start stop).mapError .error := by
  unfold phases Plan.phases
  rw [uncovered_eq (Nat.lt_trans hs h), ok_bind, selectHead_eq hw, ok_bind]
  cases hhead : Plan.selectHead regions start stop with
  | none => rfl
  | some head =>
    dsimp only
    rw [blockStop_eq hw (Plan.selectHead_some hhead).1, ok_bind, middleBlocks_eq hw, ok_bind,
      Plan.cursorAfter_cons]
    dsimp only
    split
    case isTrue => rfl
    case isFalse hlt =>
      rw [uncovered_eq (by omega), ok_bind, selectTail_eq hw, ok_bind]
      cases htail : Plan.selectTail regions _ with
      | none => rfl
      | some tail =>
        dsimp only
        rw [blockStop_eq hw (Plan.selectTail_some htail).1, ok_bind]
        split
        case isTrue hshort =>
          rw [uncovered_eq (by omega)]
          rfl
        case isFalse => rfl

theorem coveringBlocks_eq (hs : start < stop) (h : stop < addressSpace) :
    coveringBlocks regions start stop =
      (Plan.coveringBlocks regions start stop).mapError .error := by
  unfold coveringBlocks Plan.coveringBlocks
  rw [phases_eq hw hs h]
  cases Plan.phases regions start stop with
  | ok bs => rfl
  | error e =>
    dsimp only [Except.mapError]
    rw [selectEnclosing_eq hw, ok_bind]
    cases Plan.selectEnclosing regions start stop <;> rfl

variable {plan : Plan}

theorem planStart_eq (h : plan.Covers regions start stop) : planStart plan = .ok plan.start := by
  obtain ⟨b, hb, hstart⟩ := h.start_eq
  unfold planStart
  rw [hb, hstart]
  exact blockStart_eq hw (h.within b (List.mem_of_mem_head? hb))

theorem planStop_eq (h : plan.Covers regions start stop) : planStop plan = .ok plan.stop := by
  obtain ⟨b, hb, hstop⟩ := h.stop_eq
  unfold planStop
  rw [hb, hstop]
  exact blockStop_eq hw (h.within b (List.mem_of_getLast? hb))

theorem erasedBytes_eq (h : plan.Covers regions start stop) :
    erasedBytes plan = .ok plan.erasedBytes := by
  unfold erasedBytes
  rw [planStop_eq hw h, ok_bind, planStart_eq hw h, ok_bind]
  exact sub_of_le (Nat.le_of_lt h.start_lt_stop)

/-- The plan is made without a crash, or refused without one. -/
theorem make_eq {exact : Bool} (h : start + len < addressSpace) :
    make regions start len exact = (Plan.make regions start len exact).mapError .error := by
  unfold make Plan.make
  split
  case isTrue => rfl
  case isFalse hlen =>
    have hpos : 0 < len := Nat.pos_of_ne_zero (by simpa using hlen)
    have hlong : start + len < longSpace := Nat.lt_trans h (by decide)
    rw [long_of_lt hlong, ok_bind, coveringBlocks_eq hw (by omega) h]
    cases hblocks : Plan.coveringBlocks regions start (start + len) with
    | error e => rfl
    | ok bs =>
      obtain ⟨cursor, hreaches, hle⟩ := Plan.coveringBlocks_reaches (by omega) hblocks
      have hcovers := hreaches.covers hle
      dsimp only [Except.mapError]
      rw [ok_bind, planStart_eq hw hcovers, ok_bind, planStop_eq hw hcovers, ok_bind]
      have hword : min (Plan.stop ⟨bs⟩) (addressSpace - 1) < addressSpace :=
        Nat.lt_of_le_of_lt (Nat.min_le_right _ _) (by decide)
      rw [word_of_lt hword]
      cases exact with
      | false => rfl
      | true =>
        cases hends : Plan.start ⟨bs⟩ == start && Plan.stop ⟨bs⟩ == start + len with
        | false => simp [bind, Except.bind, Plan.requireExact, hends]
        | true => simp [bind, Except.bind, pure, Except.pure, Plan.requireExact, hends]

end Table

end Checked
end NorFlash
