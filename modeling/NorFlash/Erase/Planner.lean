import NorFlash.Erase.Plan
import NorFlash.Error
import NorFlash.Log.Notice

namespace NorFlash.Plan

/-- The first element that no later one beats. -/
def best? {α : Type} (beats : α → α → Bool) : List α → Option α
  | [] => none
  | x :: xs => some (xs.foldl (fun b y => if beats y b then y else b) x)

/-- Bytes that a block around `start` erases outside `[start, stop)`. -/
def waste (start stop : Nat) (b : Block) : Nat := start - b.start + (b.stop - stop)

def headCandidates (regions : List Region) (start : Nat) : List Block :=
  regions.filterMap (·.blockHolding? start)

/-- Less waste is better, then a larger block, then an earlier region. -/
def selectHead (regions : List Region) (start stop : Nat) : Option Block :=
  best? (fun y b => waste start stop y < waste start stop b ||
    waste start stop y == waste start stop b && b.size < y.size) (headCandidates regions start)

def middleCandidates (regions : List Region) (cursor stop : Nat) : List Block :=
  (regions.filterMap (·.blockFrom? cursor)).filter fun b => b.stop ≤ stop

/-- The largest block from the cursor on that stays inside the range. -/
def selectMiddle (regions : List Region) (cursor stop : Nat) : Option Block :=
  best? (fun y b => b.size < y.size) (middleCandidates regions cursor stop)

def tailCandidates (regions : List Region) (cursor : Nat) : List Block :=
  regions.filterMap (·.blockFrom? cursor)

/-- The smallest block from the cursor on. -/
def selectTail (regions : List Region) (cursor : Nat) : Option Block :=
  best? (fun y b => y.size < b.size) (tailCandidates regions cursor)

/-- The smallest block around the whole range. -/
def selectEnclosing (regions : List Region) (start stop : Nat) : Option Block :=
  best? (fun y b => y.size < b.size)
    ((headCandidates regions start).filter (·.encloses start stop))

theorem foldl_mem {α : Type} (beats : α → α → Bool) (x : α) (xs : List α) :
    xs.foldl (fun b y => if beats y b then y else b) x ∈ x :: xs := by
  induction xs generalizing x with
  | nil => simp
  | cons y ys ih =>
    simp only [List.foldl_cons]
    split
    · exact List.mem_cons_of_mem x (ih y)
    · rcases List.mem_cons.mp (ih x) with h | h
      · rw [h]
        exact List.mem_cons_self
      · exact List.mem_cons_of_mem x (List.mem_cons_of_mem y h)

theorem mem_of_best? {α : Type} {beats : α → α → Bool} {xs : List α} {b : α}
    (h : best? beats xs = some b) : b ∈ xs := by
  cases xs with
  | nil => simp [best?] at h
  | cons x xs =>
    simp only [best?, Option.some.injEq] at h
    exact h ▸ foldl_mem beats x xs

theorem selectMiddle_stop {regions : List Region} {cursor stop : Nat} {b : Block}
    (h : selectMiddle regions cursor stop = some b) : cursor < b.stop ∧ b.stop ≤ stop := by
  obtain ⟨hb, hs⟩ := List.mem_filter.mp (mem_of_best? h)
  obtain ⟨r, _, hr⟩ := List.mem_filterMap.mp hb
  exact ⟨r.stop_of_blockFrom? hr, by simpa using hs⟩

/-- The blocks of the middle phase, from the cursor on. -/
def middleBlocks (regions : List Region) (stop cursor : Nat) : List Block :=
  if cursor < stop then
    match _h : selectMiddle regions cursor stop with
    | some b => b :: middleBlocks regions stop b.stop
    | none => []
  else []
termination_by stop - cursor
decreasing_by
  have := selectMiddle_stop _h
  omega

/-- Where the cursor stands after some blocks. -/
def cursorAfter (start : Nat) (bs : List Block) : Nat := (bs.getLast?.map Block.stop).getD start

def coverageError (addr : Nat) : Error := .noCoverage (addr % addressSpace)

/-- The head, then the largest blocks from its end on, then one last block for what is missing. -/
def phases (regions : List Region) (start stop : Nat) : Except Error (List Block) :=
  match selectHead regions start stop with
  | none => .error (coverageError start)
  | some head =>
    let inner := head :: middleBlocks regions stop head.stop
    let cursor := cursorAfter start inner
    if stop ≤ cursor then .ok inner
    else match selectTail regions cursor with
      | none => .error (coverageError cursor)
      | some tail =>
        if tail.stop < stop then .error (coverageError tail.stop) else .ok (inner ++ [tail])

/-- The phases' blocks, or the single block that stands in for them. -/
def coveringBlocks (regions : List Region) (start stop : Nat) : Except Error (List Block) :=
  match phases regions start stop with
  | .ok bs => .ok bs
  | .error e =>
    match selectEnclosing regions start stop with
    | some b => .ok [b]
    | none => .error e

/-- Refuses a plan that erases anything outside the range. -/
def requireExact (start stop : Nat) (p : Plan) : Except Error Plan :=
  if p.start == start && p.stop == stop then .ok p
  else .error (.notExact p.start (min p.stop (addressSpace - 1)))

/-- The blocks to erase for `[start, start + len)`; an exact plan erases nothing else. -/
def make (regions : List Region) (start len : Nat) (exact : Bool) : Except Error Plan :=
  if len == 0 then .error .invalidArgument
  else do
    let blocks ← coveringBlocks regions start (start + len)
    if exact then requireExact start (start + len) ⟨blocks⟩ else .ok ⟨blocks⟩

end NorFlash.Plan
