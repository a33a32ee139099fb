import NorFlash.Flash.Access
import NorFlash.Proofs.Commands

namespace NorFlash

/-- The chunk lies inside `[start, start + len)` and inside one page, at its own place in the
caller's buffer. -/
structure Chunk.Piece (start len page : Nat) (k : Chunk) : Prop where
  pos : 0 < k.len
  addr : k.addr = start + k.offset
  inside : k.offset + k.len ≤ len
  page : k.addr % page + k.len ≤ page

namespace Transfer

variable {t : Transfer} {k : Chunk} {cursor i start len page most : Nat}

theorem lengthAt_inside (t : Transfer) (h : cursor < t.stop) :
    cursor + t.lengthAt cursor ≤ t.stop := by
  unfold lengthAt
  omega

theorem lengthAt_in_page (t : Transfer) (cursor : Nat) :
    cursor % t.page + t.lengthAt cursor ≤ t.page := by
  have hedge : (cursor / t.page + 1) * t.page = cursor / t.page * t.page + t.page :=
    Nat.succ_mul _ _
  have hsplit := Nat.div_add_mod' cursor t.page
  have hmod := Nat.mod_lt cursor t.page_pos
  unfold lengthAt
  omega

theorem chunkAt_addr (h : cursor < addressSpace) : (t.chunkAt cursor).addr = cursor :=
  Nat.mod_eq_of_lt h

theorem chunkAt_piece (hs : t.start ≤ cursor) (h : cursor < t.stop) (hl : t.stop = t.start + len)
    (hb : t.stop ≤ addressSpace) : (t.chunkAt cursor).Piece t.start len t.page := by
  have haddr : (t.chunkAt cursor).addr = cursor := chunkAt_addr (by omega)
  have hoff : (t.chunkAt cursor).offset = cursor - t.start := rfl
  have hlen : (t.chunkAt cursor).len = t.lengthAt cursor := rfl
  have hin := t.lengthAt_inside h
  refine ⟨t.lengthAt_pos h, by omega, by omega, ?_⟩
  rw [haddr]
  exact t.lengthAt_in_page cursor

/-- Each piece is the one at some cursor. -/
theorem exists_cursor (hk : k ∈ t.chunksFrom cursor) :
    ∃ i, cursor ≤ i ∧ i < t.stop ∧ k = t.chunkAt i := by
  fun_induction chunksFrom t cursor with
  | case1 cursor h ih =>
    rcases List.mem_cons.mp hk with rfl | hk
    · exact ⟨cursor, Nat.le_refl _, h, rfl⟩
    · obtain ⟨i, hle, hi⟩ := ih hk
      exact ⟨i, Nat.le_of_add_right_le hle, hi⟩
  | case2 cursor h => cases hk

theorem chunksFrom_piece (hs : t.start ≤ cursor) (hl : t.stop = t.start + len)
    (hb : t.stop ≤ addressSpace) (hk : k ∈ t.chunksFrom cursor) :
    k.Piece t.start len t.page := by
  obtain ⟨i, hle, hi, rfl⟩ := exists_cursor hk
  exact chunkAt_piece (Nat.le_trans hs hle) hi hl hb

theorem chunksFrom_cover (hb : t.stop ≤ addressSpace) (hi : cursor ≤ i) (h : i < t.stop) :
    ∃ k ∈ t.chunksFrom cursor, k.addr ≤ i ∧ i < k.addr + k.len := by
  fun_induction chunksFrom t cursor with
  | case1 cursor hlt ih =>
    by_cases hnext : cursor + t.lengthAt cursor ≤ i
    · obtain ⟨k, hk, hin⟩ := ih hnext
      exact ⟨k, List.mem_cons_of_mem _ hk, hin⟩
    · have haddr : (t.chunkAt cursor).addr = cursor := chunkAt_addr (by omega)
      have hlen : (t.chunkAt cursor).len = t.lengthAt cursor := rfl
      exact ⟨t.chunkAt cursor, List.mem_cons_self, by omega, by omega⟩
  | case2 cursor hge => omega

/-- All pieces together are as long as what is left of the transfer. -/
theorem total_chunksFrom (t : Transfer) (cursor : Nat) :
    total ((t.chunksFrom cursor).map Chunk.len) = t.stop - cursor := by
  fun_induction chunksFrom t cursor with
  | case1 cursor h ih =>
    have hin := t.lengthAt_inside h
    have hlen : (t.chunkAt cursor).len = t.lengthAt cursor := rfl
    rw [List.map_cons, total_cons, ih]
    omega
  | case2 cursor h =>
    rw [List.map_nil, total_nil]
    omega

theorem of?_ok (h : of? start len page most = .ok t) :
    t.start = start ∧ t.stop = start + len ∧ t.page = page := by
  unfold of? at h
  split at h
  case isTrue => cases h
  case isFalse =>
    split at h
    case isTrue => cases h
    case isFalse =>
      cases h
      exact ⟨rfl, rfl, rfl⟩

theorem most_pos_of_ok (h : of? start len page most = .ok t) : 0 < most := by
  unfold of? at h
  split at h
  case isTrue => cases h
  case isFalse hm => exact Nat.pos_of_ne_zero hm

theorem exists_of? (start len : Nat) (hp : 0 < page) (hm : 0 < most) :
    ∃ t, of? start len page most = .ok t := by
  refine ⟨⟨start, start + len, page, most, hp, hm⟩, ?_⟩
  rw [of?, dif_neg (by omega), dif_neg (by omega)]

/-- The pieces of a range. There are none where it cannot be cut. -/
def pieces (page most start len : Nat) : List Chunk :=
  match of? start len page most with
  | .ok t => t.chunks
  | .error _ => []

theorem piece_of_mem (hb : start + len ≤ addressSpace) (hk : k ∈ pieces page most start len) :
    k.Piece start len page := by
  unfold pieces at hk
  split at hk
  case h_1 t ht =>
    obtain ⟨rfl, hstop, rfl⟩ := of?_ok ht
    exact chunksFrom_piece (Nat.le_refl _) hstop (hstop ▸ hb) hk
  case h_2 => cases hk

/-- The pieces leave nothing of the range out. -/
theorem exists_piece (hp : 0 < page) (hm : 0 < most) (hb : start + len ≤ addressSpace)
    (hlo : start ≤ i) (hhi : i < start + len) :
    ∃ k ∈ pieces page most start len, k.addr ≤ i ∧ i < k.addr + k.len := by
  obtain ⟨t, ht⟩ := exists_of? start len hp hm
  obtain ⟨hstart, hstop, _⟩ := of?_ok ht
  rw [pieces, ht]
  exact chunksFrom_cover (by omega) (by omega) (by omega)

end Transfer

namespace CellOperation

variable {page most start len i : Nat} {data : Bytes} {want : Content} {op : CellOperation}

/-- How a range is read. -/
def reads (page most start len : Nat) : List CellOperation :=
  (Transfer.pieces page most start len).map fun k => read k.addr k.len

/-- How a range is programmed. -/
def programs (page most start : Nat) (data : Bytes) : List CellOperation :=
  (Transfer.pieces page most start data.size).map fun k =>
    program k.addr (data.extract k.offset (k.offset + k.len))

theorem mem_reads (h : op ∈ reads page most start len) : ∃ addr len, op = read addr len := by
  obtain ⟨k, _, rfl⟩ := List.mem_map.mp h
  exact ⟨k.addr, k.len, rfl⟩

theorem effects_of_reads (m : Content) : effects (reads page most start len) m = m :=
  effects_reads fun _ => mem_reads

theorem programs_write (hb : start + data.size ≤ addressSpace)
    (hw : ∀ j < data.size, data.byteAt j = want (start + j))
    (h : op ∈ programs page most start data) : op.Writes want := by
  obtain ⟨k, hk, rfl⟩ := List.mem_map.mp h
  have piece := Transfer.piece_of_mem hb hk
  have hin := piece.inside
  intro j hj
  rw [Bytes.size_extract_add hin] at hj
  rw [Bytes.byteAt_extract hin (by omega), hw _ (by omega), piece.addr, Nat.add_assoc]

theorem exists_program (hb : start + data.size ≤ addressSpace)
    (h : op ∈ programs page most start data) : ∃ addr piece, op = program addr piece ∧
      start ≤ addr ∧ addr + piece.size ≤ start + data.size := by
  obtain ⟨k, hk, rfl⟩ := List.mem_map.mp h
  have piece := Transfer.piece_of_mem hb hk
  have haddr := piece.addr
  have hin := piece.inside
  refine ⟨_, _, rfl, by omega, ?_⟩
  rw [Bytes.size_extract_add hin]
  omega

theorem programs_inside (hb : start + data.size ≤ addressSpace)
    (h : op ∈ programs page most start data) (hr : op.Reaches i) :
    start ≤ i ∧ i < start + data.size := by
  obtain ⟨addr, piece, rfl, hlo, hhi⟩ := exists_program hb h
  exact ⟨Nat.le_trans hlo hr.1, Nat.lt_of_lt_of_le hr.2 hhi⟩

/-- Nothing is programmed where nothing can be carried. -/
theorem most_pos_of_mem_programs (h : op ∈ programs page most start data) : 0 < most := by
  obtain ⟨k, hk, _⟩ := List.mem_map.mp h
  unfold Transfer.pieces at hk
  split at hk
  case h_1 t ht => exact Transfer.most_pos_of_ok ht
  case h_2 => cases hk

/-- Every address of the range is programmed. -/
theorem programs_reach (data : Bytes) (hp : 0 < page) (hm : 0 < most)
    (hb : start + data.size ≤ addressSpace) (hlo : start ≤ i) (hhi : i < start + data.size) :
    ∃ op ∈ programs page most start data, op.Reaches i := by
  obtain ⟨k, hk, hi⟩ := Transfer.exists_piece hp hm hb hlo hhi
  have hin := (Transfer.piece_of_mem hb hk).inside
  refine ⟨_, List.mem_map_of_mem hk, hi.1, ?_⟩
  rw [Bytes.size_extract_add hin]
  exact hi.2

end CellOperation

variable {σ β : Type} {p : Programmer σ} {view : σ → Emulator} {faultless : Prop} {s : σ}

theorem Gives.checkRange {c : Chip} {addr len : Nat} (h : addr + len ≤ c.size) :
    Gives view faultless (p.checkRange c addr len) s () := by
  have hh : c.holds addr len = true := decide_eq_true h
  exact .of_ok (if_pos hh) rfl

/-- Walking over a range performs one operation for each piece. `inv` says what has become of the
value when some first pieces are done. Where nothing can be carried the walk does not begin. -/
theorem Performs.walk {f : β → Chunk → Act σ Stop β} {b : β} {page most start len : Nat}
    (op : Chunk → CellOperation) (inv : List Chunk → β → Prop) (hp : 0 < page)
    (hm : faultless → 0 < most) (hb : start + len ≤ addressSpace) (h₀ : inv [] b)
    (hstep : ∀ pre k b s', k.Piece start len page → inv pre b →
      (view s).After (pre.map op) (view s') →
      Performs view faultless (f b k) s' [op k] (fun b' _ => inv (pre ++ [k]) b')) :
    Performs view faultless
      (Stop.lift (Transfer.of? start len page most) >>= fun t => t.walk f b) s
      ((Transfer.pieces page most start len).map op)
      (fun b' _ => 0 < most ∧ inv (Transfer.pieces page most start len) b') := by
  unfold Transfer.pieces
  cases ht : Transfer.of? start len page most with
  | error e =>
    refine .stopped (Act.bind_error rfl) (fun hf => ?_) List.nil_prefix (.refl _)
    obtain ⟨t, ht'⟩ := Transfer.exists_of? start len hp (hm hf)
    rw [ht] at ht'
    cases ht'
  | ok t =>
    refine .bind_value .lift fun s₁ hv₁ => ?_
    dsimp only
    rw [Transfer.walk_eq_fold, List.map_eq_flatMap]
    refine (Performs.fold inv h₀ fun pre k b s₂ hk hinv h₂ => ?_).mono
      fun b' _ _ h => ⟨Transfer.most_pos_of_ok ht, h⟩
    have hmem : k ∈ Transfer.pieces page most start len := by
      rw [Transfer.pieces, ht]
      exact hk
    refine hstep pre k b s₂ (Transfer.piece_of_mem hb hmem) hinv ?_
    rwa [List.map_eq_flatMap, ← hv₁]

variable {c : Chip} {addr len : Nat} {data buffer cells : Bytes} {k : Chunk}

/-- What has become of the buffer when some first pieces are read. -/
structure Filled (cells : Bytes) (addr len : Nat) (done : List Chunk) (buffer : Bytes) : Prop where
  size : buffer.size = len
  read : ∀ k ∈ done, ∀ i, k.offset ≤ i → i < k.offset + k.len →
    buffer.byteAt i = cells.byteAt (addr + i)

/-- A piece goes to its own place, and what was read before it is either elsewhere or the same. -/
theorem Filled.put {page : Nat} {done : List Chunk} (hf : Filled cells addr len done buffer)
    (hk : k.Piece addr len page) (hin : addr + len ≤ cells.size) :
    Filled cells addr len (done ++ [k])
      (buffer.overlay k.offset (cells.extract k.addr (k.addr + k.len))) := by
  have haddr := hk.addr
  have hlen := hk.inside
  have hsize := hf.size
  have hcells : k.addr + k.len ≤ cells.size := by omega
  have hpiece := Bytes.size_extract_add hcells
  refine ⟨(Bytes.size_overlay (by omega)).trans hf.size, ?_⟩
  intro k' hk' i hlo hhi
  rw [Bytes.byteAt_overlay (by omega), hpiece]
  by_cases hi : k.offset ≤ i ∧ i < k.offset + k.len
  · have hplace : k.addr + (i - k.offset) = addr + i := by omega
    rw [if_pos hi, Bytes.byteAt_extract hcells (by omega), hplace]
  · rw [if_neg hi]
    rcases List.mem_append.mp hk' with hk' | hk'
    · exact hf.read k' hk' i hlo hhi
    · rw [List.mem_singleton.mp hk'] at hlo hhi
      exact absurd ⟨hlo, hhi⟩ hi

/-- When all pieces are read the buffer holds the whole range. -/
theorem Filled.eq_extract {page most : Nat}
    (hf : Filled cells addr len (Transfer.pieces page most addr len) buffer) (hp : 0 < page)
    (hm : 0 < most) (hin : addr + len ≤ cells.size) (hb : addr + len ≤ addressSpace) :
    buffer = cells.extract addr (addr + len) := by
  have hsize := Bytes.size_extract_add hin
  refine Bytes.ext_byteAt (hf.size.trans hsize.symm) fun i hi => ?_
  rw [hf.size] at hi
  obtain ⟨k, hk, hlo, hhi⟩ :=
    Transfer.exists_piece hp hm hb (Nat.le_add_right addr i) (Nat.add_lt_add_left hi addr)
  have haddr := (Transfer.piece_of_mem hb hk).addr
  rw [hf.read k hk i (by omega) (by omega), Bytes.byteAt_extract hin (by omega)]

namespace Programmer.Carries

theorem readChunk (hp : p.Carries view faultless) {done : List Chunk}
    (hk : k.Piece addr len c.pageSize) (hin : addr + len ≤ (view s).cells.size)
    (hf : Filled (view s).cells addr len done buffer) :
    Performs view faultless (p.readChunk buffer k) s [.read k.addr k.len]
      (fun b _ => Filled (view s).cells addr len (done ++ [k]) b) := by
  have haddr := hk.addr
  have hlen := hk.inside
  have hoff : k.offset + k.len ≤ buffer.size := hf.size ▸ hlen
  have hsize := Bytes.size_extract_add hoff
  have hreply := Bytes.size_extract_add (by omega : k.addr + k.len ≤ (view s).cells.size)
  refine .bind_value (hp.tell _) fun s₁ hv₁ => ?_
  rw [Bytes.slice?_of_le (Nat.le_add_right _ _) hoff]
  refine .bind_value .require fun s₂ hv₂ => ?_
  have hcells : (view s₂).cells = (view s).cells := by rw [hv₂, hv₁]
  have hread : Performs view faultless
      (p.readInto k.addr (buffer.extract k.offset (k.offset + k.len))) s₂ _ _ :=
    hp.readInto (by rw [hsize, hcells]; omega)
  rw [hsize, hcells] at hread
  refine .bind_last hread fun reply s₃ _ hr => ?_
  subst hr
  refine .bind_value (hp.progress _) fun s₄ _ => ?_
  rw [Bytes.overlay?_of_le (by rw [hreply]; exact hoff)]
  refine Gives.require.mono fun b _ _ hb => ?_
  rw [hb.1]
  exact hf.put hk hin

/-- Reading a range gives what the chip holds there. -/
theorem readRange (hp : p.Carries view faultless) (hs : (view s).cells.size = c.size)
    (hc : 0 < c.pageSize) (hin : addr + buffer.size ≤ c.size) (hb : c.size ≤ addressSpace)
    (hm : faultless → 0 < (view s).maxRead) :
    Performs view faultless (p.readRange c addr buffer) s
      (CellOperation.reads c.pageSize (view s).maxRead addr buffer.size)
      (fun a _ => 0 < (view s).maxRead ∧
        a = (view s).cells.extract addr (addr + buffer.size)) := by
  refine .bind_value (.checkRange hin) fun s₁ hv₁ => ?_
  refine .bind_value .read fun s₂ hv₂ => ?_
  have hv : view s₂ = view s := hv₂.trans hv₁
  rw [hp.maxRead, hv₁, ← hv]
  rw [← hv] at hs hm
  have hsize : addr + buffer.size ≤ (view s₂).cells.size := hs ▸ hin
  refine hp.onError ((Performs.walk _ (Filled (view s₂).cells addr buffer.size) hc hm
    (Nat.le_trans hin hb) ⟨rfl, fun _ hk => by cases hk⟩ ?_).mono ?_)
  · intro pre k b s₃ hk hf h₃
    have hcells : (view s₃).cells = (view s₂).cells := by
      refine Bytes.ext_byteAt h₃.size fun i _ => congrFun (h₃.content.trans ?_) i
      refine CellOperation.effects_reads fun op hop => ?_
      obtain ⟨k', _, rfl⟩ := List.mem_map.mp hop
      exact ⟨k'.addr, k'.len, rfl⟩
    rw [← hcells] at hf hsize ⊢
    exact hp.readChunk hk hsize hf
  · intro a _ _ h
    exact ⟨h.1, h.2.eq_extract hc h.1 hsize (by omega)⟩

theorem readChunked (hp : p.Carries view faultless) (hs : (view s).cells.size = c.size)
    (hc : 0 < c.pageSize) (hin : addr + len ≤ c.size) (hb : c.size ≤ addressSpace)
    (hm : faultless → 0 < (view s).maxRead) :
    Performs view faultless (p.readChunked c addr len) s
      (CellOperation.reads c.pageSize (view s).maxRead addr len)
      (fun a _ => 0 < (view s).maxRead ∧ a = (view s).cells.extract addr (addr + len)) := by
  have hsize : addr + (Bytes.filled len 0).size ≤ c.size := by rwa [Bytes.size_filled]
  have h := hp.readRange hs hc hsize hb hm
  rwa [Bytes.size_filled] at h

/-- Reading the whole chip gives its cells. -/
theorem readChip (hp : p.Carries view faultless) (hs : (view s).cells.size = c.size)
    (hc : 0 < c.pageSize) (hb : c.size ≤ addressSpace) (hm : faultless → 0 < (view s).maxRead) :
    Performs view faultless (p.readChip c) s
      (CellOperation.reads c.pageSize (view s).maxRead 0 c.size)
      (fun a _ => 0 < (view s).maxRead ∧ a = (view s).cells) := by
  refine .bind_value (hp.progress _) fun s₁ hv₁ => ?_
  rw [← hv₁] at hs hm ⊢
  refine (hp.readChunked hs hc (Nat.le_of_eq (Nat.zero_add _)) hb hm).mono fun a _ _ h => ?_
  refine ⟨h.1, h.2.trans ?_⟩
  rw [Nat.zero_add, ← hs]
  exact ByteArray.extract_zero_size

/-- A piece of the data is programmed where it belongs. -/
theorem writeChunk (hp : p.Carries view faultless) (he : (view s).Emulates c)
    (hk : k.Piece addr data.size c.pageSize) (hin : addr + data.size ≤ c.size) :
    Performs view faultless (p.writeChunk data k) s
      [.program k.addr (data.extract k.offset (k.offset + k.len))] (fun _ _ => True) := by
  have haddr := hk.addr
  have hoff := hk.inside
  have hsize := Bytes.size_extract_add hoff
  refine .bind_value (hp.tell _) fun s₁ hv₁ => ?_
  rw [Bytes.slice?_of_le (Nat.le_add_right _ _) hoff]
  refine .bind_value .require fun s₂ hv₂ => ?_
  rw [← hv₁, ← hv₂] at he
  refine .bind_last (hp.programPage he ?_ ?_ ?_) fun _ s₃ _ _ => ?_
  · rw [hsize]
    exact hk.pos
  · rw [hsize]
    exact hk.page
  · rw [hsize]
    omega
  · exact (hp.progress _).mono fun _ _ _ _ => trivial

/-- Programming a range performs its programs. A programmer that can carry no data at all stops
before the first. -/
theorem writeChunked (hp : p.Carries view faultless) (he : (view s).Emulates c)
    (hc : 0 < c.pageSize) (hin : addr + data.size ≤ c.size) (hb : c.size ≤ addressSpace)
    (hm : faultless → 0 < (view s).maxWrite) :
    Performs view faultless (p.writeChunked c addr data) s
      (CellOperation.programs c.pageSize (view s).maxWrite addr data) (fun _ _ => True) := by
  refine .bind_value (.checkRange hin) fun s₁ hv₁ => ?_
  refine .bind_value .read fun s₂ hv₂ => ?_
  rw [hp.maxWrite, hv₁]
  refine hp.onError ((Performs.walk _ (fun _ _ => True) hc hm (Nat.le_trans hin hb) trivial ?_).mono
    fun _ _ _ _ => trivial)
  intro pre k _ s₃ hk _ h₃
  rw [← hv₁, ← hv₂] at he
  exact hp.writeChunk (he.after h₃) hk hin

end Programmer.Carries
end NorFlash
