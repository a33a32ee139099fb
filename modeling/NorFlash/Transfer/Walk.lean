import NorFlash.Act
import NorFlash.Transfer.Chunk

namespace NorFlash.Transfer

variable {σ ε β : Type}

/-- Threads a value through the pieces from the cursor on. -/
def walkFrom (t : Transfer) (f : β → Chunk → Act σ ε β) (b : β) (cursor : Nat) (s : σ) :
    Except ε β × σ :=
  if _h : cursor < t.stop then
    match f b (t.chunkAt cursor) s with
    | (.ok b', s') => t.walkFrom f b' (cursor + t.lengthAt cursor) s'
    | (.error e, s') => (.error e, s')
  else (.ok b, s)
termination_by t.stop - cursor
decreasing_by
  have := t.lengthAt_pos _h
  omega

def walk (t : Transfer) (f : β → Chunk → Act σ ε β) (b : β) : Act σ ε β := t.walkFrom f b t.start

theorem walkFrom_eq_fold (t : Transfer) (f : β → Chunk → Act σ ε β) (b : β) (cursor : Nat) (s : σ) :
    t.walkFrom f b cursor s = Act.fold f b (t.chunksFrom cursor) s := by
  fun_induction walkFrom t f b cursor s with
  | case1 b cursor s h b' s' hf ih =>
    rw [chunksFrom, dif_pos h, Act.fold_cons_apply, hf]
    exact ih
  | case2 b cursor s h e s' hf => rw [chunksFrom, dif_pos h, Act.fold_cons_apply, hf]
  | case3 b cursor s h => rw [chunksFrom, dif_neg h, Act.fold_nil]

/-- Walking is a fold over the pieces. -/
theorem walk_eq_fold (t : Transfer) (f : β → Chunk → Act σ ε β) (b : β) :
    t.walk f b = Act.fold f b t.chunks :=
  funext fun s => t.walkFrom_eq_fold f b t.start s

end NorFlash.Transfer
