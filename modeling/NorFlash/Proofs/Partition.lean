import NorFlash.Proofs.Limits

namespace NorFlash

namespace Chunk

/-- The pieces lie side by side from one address to another. -/
inductive Spans : Nat → List Chunk → Nat → Prop where
  | nil (addr : Nat) : Spans addr [] addr
  | cons {addr hi : Nat} {k : Chunk} {ks : List Chunk} (here : k.addr = addr)
      (rest : Spans (addr + k.len) ks hi) : Spans addr (k :: ks) hi

/-- A piece that cannot be made longer: it ends with its page or with the range, or is all that can
be carried at once. -/
structure Cut (start len page most : Nat) (k : Chunk) : Prop where
  piece : k.Piece start len page
  len_le : k.len ≤ most
  full : page ∣ k.addr + k.len ∨ k.addr + k.len = start + len ∨ k.len = most

variable {lo hi : Nat} {ks : List Chunk}

theorem Spans.le_addr (h : Spans lo ks hi) : ∀ k ∈ ks, lo ≤ k.addr := by
  induction h with
  | nil addr => simp
  | cons here rest ih =>
    intro k' hk
    rcases List.mem_cons.mp hk with rfl | hk
    · exact Nat.le_of_eq here.symm
    · exact Nat.le_of_add_right_le (ih k' hk)

/-- What lies side by side is in ascending order and does not overlap. -/
theorem Spans.ascending (h : Spans lo ks hi) :
    ks.Pairwise fun k k' => k.addr + k.len ≤ k'.addr := by
  induction h with
  | nil addr => exact List.Pairwise.nil
  | cons here rest ih =>
    apply List.Pairwise.cons _ ih
    intro k' hk
    rw [here]
    exact rest.le_addr k' hk

end Chunk

namespace Transfer

variable (t : Transfer) {cursor len : Nat} {k : Chunk}

/-- Going on from a cursor: the piece there and the next cursor, and nothing at the end. -/
def next? (cursor : Nat) : Option (Chunk × Nat) :=
  if cursor < t.stop then some (t.chunkAt cursor, cursor + t.lengthAt cursor) else none

/-- Going on again and again leads over these pieces from one cursor to another. -/
inductive Yields : Nat → List Chunk → Nat → Prop where
  | nil (cursor : Nat) : Yields cursor [] cursor
  | cons {cursor next last : Nat} {k : Chunk} {ks : List Chunk}
      (here : t.next? cursor = some (k, next)) (rest : Yields next ks last) :
      Yields cursor (k :: ks) last

theorem next?_stop : t.next? t.stop = none := if_neg (Nat.lt_irrefl _)

theorem yields_chunksFrom (h : cursor ≤ t.stop) : t.Yields cursor (t.chunksFrom cursor) t.stop := by
  fun_induction chunksFrom t cursor with
  | case1 cursor hlt ih => exact .cons (if_pos hlt) (ih (t.lengthAt_inside hlt))
  | case2 cursor hge =>
    have hend : cursor = t.stop := by omega
    rw [hend]
    exact .nil t.stop

theorem spans_chunksFrom (hb : t.stop ≤ addressSpace) (h : cursor ≤ t.stop) :
    Chunk.Spans cursor (t.chunksFrom cursor) t.stop := by
  fun_induction chunksFrom t cursor with
  | case1 cursor hlt ih =>
    exact .cons (chunkAt_addr (Nat.lt_of_lt_of_le hlt hb)) (ih (t.lengthAt_inside hlt))
  | case2 cursor hge =>
    have hend : cursor = t.stop := by omega
    rw [hend]
    exact .nil t.stop

/-- What ends the piece at a cursor is its page, the transfer or the limit. -/
theorem lengthAt_full (h : cursor < t.stop) : t.page ∣ cursor + t.lengthAt cursor ∨
    cursor + t.lengthAt cursor = t.stop ∨ t.lengthAt cursor = t.most := by
  have hsplit := Nat.div_add_mod' cursor t.page
  have hmod := Nat.mod_lt cursor t.page_pos
  have hedge : (cursor / t.page + 1) * t.page = cursor / t.page * t.page + t.page :=
    Nat.succ_mul _ _
  by_cases hpage : cursor + t.lengthAt cursor = (cursor / t.page + 1) * t.page
  · left
    rw [hpage]
    exact Nat.dvd_mul_left _ _
  · right
    unfold lengthAt at hpage ⊢
    omega

theorem chunksFrom_cut (hs : t.start ≤ cursor) (hl : t.stop = t.start + len)
    (hb : t.stop ≤ addressSpace) (hk : k ∈ t.chunksFrom cursor) :
    k.Cut t.start len t.page t.most := by
  have piece := chunksFrom_piece hs hl hb hk
  have hlen := len_le_of_mem_chunksFrom hk
  obtain ⟨i, _, hi, rfl⟩ := exists_cursor hk
  have haddr : (t.chunkAt i).addr = i := chunkAt_addr (Nat.lt_of_lt_of_le hi hb)
  have hfull := t.lengthAt_full hi
  exact ⟨piece, hlen, by rw [haddr, ← hl]; exact hfull⟩

end Transfer

namespace Act

variable {σ ε α β : Type}

/-- A step is run on some elements in a row, each time from where the time before ended. Only the
last time it may fail. -/
inductive Calls (f : β → α → Act σ ε β) : β → σ → List α → Except ε β → σ → Prop where
  | ended (b : β) (s : σ) : Calls f b s [] (.ok b) s
  | next {b b' : β} {s s' t : σ} {x : α} {xs : List α} {r : Except ε β}
      (here : f b x s = (.ok b', s')) (rest : Calls f b' s' xs r t) : Calls f b s (x :: xs) r t
  | failed {b : β} {s t : σ} {x : α} {e : ε} (here : f b x s = (.error e, t)) :
      Calls f b s [x] (.error e) t

/-- The step with a record of what it was run on, the latest last. -/
def logged (f : β → α → Act σ ε β) (b : β) (x : α) : Act (σ × List α) ε β := fun s =>
  match f b x s.1 with
  | (r, s') => (r, (s', s.2 ++ [x]))

/-- A fold runs its step on a first part of the list, on all of it if it ends well, and keeps what
the last run came to. -/
theorem fold_calls (f : β → α → Act σ ε β) (xs : List α) (b : β) (s : σ) :
    ∃ called rest, xs = called ++ rest ∧
      Calls f b s called (fold f b xs s).1 (fold f b xs s).2 ∧
      (∀ b', (fold f b xs s).1 = .ok b' → rest = []) ∧
      ∀ log, fold (logged f) b xs (s, log) =
        ((fold f b xs s).1, ((fold f b xs s).2, log ++ called)) := by
  induction xs generalizing b s with
  | nil =>
    refine ⟨[], [], rfl, .ended b s, fun _ _ => rfl, fun log => ?_⟩
    simp
  | cons x xs ih =>
    cases hx : f b x s with
    | mk r s' =>
      cases r with
      | ok b' =>
        obtain ⟨called, rest, hxs, hcalls, hall, hlog⟩ := ih b' s'
        have hfold : fold f b (x :: xs) s = fold f b' xs s' := by rw [fold_cons_apply, hx]
        rw [hfold]
        refine ⟨x :: called, rest, by rw [hxs, List.cons_append], .next hx hcalls, hall, ?_⟩
        intro log
        rw [fold_cons_apply]
        simp only [logged, hx, hlog]
        simp
      | error e =>
        have hfold : fold f b (x :: xs) s = (.error e, s') := by rw [fold_cons_apply, hx]
        rw [hfold]
        refine ⟨[x], xs, rfl, .failed hx, nofun, ?_⟩
        intro log
        rw [fold_cons_apply]
        simp only [logged, hx]

end Act

namespace Transfer

/-- A transfer that is not refused is cut into pieces which lie side by side over its range, each in
its place of the caller's buffer, inside one page, no longer than the limit and as long as it can be.
Going through them comes to an end. A step that is run on them is run on a first part, up to the
first piece on which it fails, and its failure is what comes of it. -/
theorem cut_and_walked (start len : Nat) {page most : Nat} (hp : 0 < page) (hm : 0 < most)
    (hb : start + len ≤ addressSpace) :
    ∃ t, of? start len page most = .ok t ∧
      t.Yields start t.chunks (start + len) ∧ t.next? (start + len) = none ∧
      Chunk.Spans start t.chunks (start + len) ∧ total (t.chunks.map Chunk.len) = len ∧
      (t.chunks.Pairwise fun k k' => k.addr + k.len ≤ k'.addr) ∧
      (∀ k ∈ t.chunks, k.Cut start len page most) ∧
      ∀ {σ ε β : Type} (f : β → Chunk → Act σ ε β) (b : β) (s : σ), ∃ called rest,
        t.chunks = called ++ rest ∧ Act.Calls f b s called (t.walk f b s).1 (t.walk f b s).2 ∧
        (∀ b', (t.walk f b s).1 = .ok b' → rest = []) ∧
        ∀ log, t.walk (Act.logged f) b (s, log) =
          ((t.walk f b s).1, ((t.walk f b s).2, log ++ called)) := by
  let t : Transfer := ⟨start, start + len, page, most, hp, hm⟩
  have hle : start ≤ t.stop := Nat.le_add_right _ _
  have hspans : Chunk.Spans start t.chunks t.stop := t.spans_chunksFrom hb hle
  have htotal : total (t.chunks.map Chunk.len) = t.stop - start := t.total_chunksFrom start
  refine ⟨t, ?_, t.yields_chunksFrom hle, t.next?_stop, hspans, ?_, hspans.ascending, ?_, ?_⟩
  · rw [of?, dif_neg (Nat.ne_of_gt hm), dif_neg (Nat.ne_of_gt hp)]
  · rw [htotal]
    exact Nat.add_sub_cancel_left start len
  · intro k hk
    exact t.chunksFrom_cut (Nat.le_refl _) rfl hb hk
  · intro σ ε β f b s
    rw [t.walk_eq_fold f b, t.walk_eq_fold (Act.logged f) b]
    exact Act.fold_calls f t.chunks b s

/-- Twenty bytes up to the very end of the address space, over pages of six bytes and in pieces of
at most four. -/
theorem cut_and_walked_last : ∃ t, of? 0xFFFFFFEC 20 6 4 = .ok t ∧
    Chunk.Spans 0xFFFFFFEC t.chunks addressSpace ∧
    ∀ k ∈ t.chunks, k.Cut 0xFFFFFFEC 20 6 4 := by
  obtain ⟨t, ht, _, _, hspans, _, _, hcut, _⟩ :=
    cut_and_walked 0xFFFFFFEC 20 (show 0 < 6 by decide) (show 0 < 4 by decide) (by decide)
  exact ⟨t, ht, hspans, hcut⟩

end Transfer
end NorFlash
