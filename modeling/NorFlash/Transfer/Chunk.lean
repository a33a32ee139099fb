import NorFlash.Chip.Region
import NorFlash.Error
import NorFlash.Log.Notice

namespace NorFlash

structure Chunk where
  /-- The bus address of the first byte. -/
  addr : Nat
  /-- Where the first byte stands in the caller's buffer. -/
  offset : Nat
  len : Nat
  deriving DecidableEq, Repr

/-- A transfer of `[start, stop)` over pages of `page` bytes in pieces of at most `most`. -/
structure Transfer where
  start : Nat
  stop : Nat
  page : Nat
  most : Nat
  page_pos : 0 < page
  most_pos : 0 < most

namespace Transfer

def of? (start len page most : Nat) : Except Error Transfer :=
  if hm : most = 0 then .error .transferSizeUnspecified
  else if hp : page = 0 then .error .invalidArgument
  else .ok ⟨start, start + len, page, most, Nat.pos_of_ne_zero hp, Nat.pos_of_ne_zero hm⟩

/-- Length of the piece at the cursor: up to the end of the page, the end of the transfer or what
one piece may carry. -/
def lengthAt (t : Transfer) (cursor : Nat) : Nat :=
  min (min ((cursor / t.page + 1) * t.page) t.stop - cursor) t.most

theorem lengthAt_pos (t : Transfer) {cursor : Nat} (h : cursor < t.stop) :
    0 < t.lengthAt cursor := by
  have hp := t.page_pos
  have hm := t.most_pos
  have hd : cursor < (cursor / t.page + 1) * t.page := by
    have := Nat.div_add_mod cursor t.page
    have := Nat.mod_lt cursor hp
    rw [Nat.add_mul, Nat.one_mul, Nat.mul_comm]
    omega
  unfold lengthAt
  omega

def chunkAt (t : Transfer) (cursor : Nat) : Chunk :=
  ⟨cursor % addressSpace, cursor - t.start, t.lengthAt cursor⟩

/-- The pieces from the cursor on. -/
def chunksFrom (t : Transfer) (cursor : Nat) : List Chunk :=
  if _h : cursor < t.stop then t.chunkAt cursor :: t.chunksFrom (cursor + t.lengthAt cursor) else []
termination_by t.stop - cursor
decreasing_by
  have := t.lengthAt_pos _h
  omega

def chunks (t : Transfer) : List Chunk := t.chunksFrom t.start

end Transfer

namespace Chunk

def notice (c : Chunk) : Notice := .trace fun _ => s!"chunk {Text.address c.addr}+{c.len}"

end Chunk
end NorFlash
