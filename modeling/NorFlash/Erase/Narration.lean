import NorFlash.Erase.Planner

namespace NorFlash.Plan

def blockText (b : Block) : String := s!"{Text.opcode b.function.opcode} {Text.span b.start b.stop}"

def headNotice (start stop : Nat) (b : Block) : Notice :=
  .trace fun _ => s!"head candidate {blockText b}: waste {waste start stop b}"

def middleNotice (b : Block) : Notice := .trace fun _ => s!"middle candidate {blockText b}"

def tailNotice (b : Block) : Notice := .trace fun _ => s!"tail candidate {blockText b}"

def fallbackNotice (e : Error) (b : Block) : Notice :=
  .debug fun _ =>
    s!"Phased plan stopped ({e.message}), falling back to the {Text.opcode b.function.opcode} " ++
      s!"block {Text.span b.start b.stop}"

def coverNotice (start stop : Nat) (p : Plan) : Notice :=
  .debug fun _ =>
    s!"Erase plan for {Text.span start stop}: {p.blocks.length} block(s) covering " ++
      Text.span p.start p.stop

def phaseNotices (regions : List Region) (start stop : Nat) : List Notice :=
  (headCandidates regions start).map (headNotice start stop) ++
    match selectHead regions start stop with
    | none => []
    | some head =>
      let middle := middleBlocks regions stop head.stop
      let cursor := cursorAfter start (head :: middle)
      middle.flatMap (fun b => (middleCandidates regions b.start stop).map middleNotice) ++
        if stop ≤ cursor then [] else (tailCandidates regions cursor).map tailNotice

/-- Everything that making a plan tells, in order. -/
def notices (regions : List Region) (start len : Nat) : List Notice :=
  if len == 0 then []
  else
    let stop := start + len
    phaseNotices regions start stop ++
      match phases regions start stop with
      | .ok bs => [coverNotice start stop ⟨bs⟩]
      | .error e =>
        match selectEnclosing regions start stop with
        | some b => [fallbackNotice e b, coverNotice start stop ⟨[b]⟩]
        | none => []

end NorFlash.Plan
