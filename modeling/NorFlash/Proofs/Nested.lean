import Mathlib.Combinatorics.Enumerative.DoubleCounting
import Mathlib.Order.Interval.Finset.Nat
import NorFlash.Chip.Catalog
import NorFlash.Proofs.Choice

namespace NorFlash

/-- Active regions that all split `[0, total)`, with block sizes of which one always divides the
other. -/
structure Nested (total : Nat) (regions : List Region) : Prop where
  start : ∀ r ∈ regions, r.active = true → r.start = 0
  stop : ∀ r ∈ regions, r.active = true → r.stop = total
  divides : ∀ r ∈ regions, ∀ r' ∈ regions, r.active = true → r'.active = true →
    r.blockSize ∣ r'.blockSize ∨ r'.blockSize ∣ r.blockSize

/-- There are active regions, and `size` is the smallest of their block sizes. -/
structure Finest (regions : List Region) (size : Nat) : Prop where
  used : ∃ r ∈ regions, r.active = true ∧ r.blockSize = size
  least : ∀ r ∈ regions, r.active = true → size ≤ r.blockSize

variable {regions : List Region} {total s addr start stop len i : Nat} {r : Region} {b x : Block}

theorem add_le_of_dvd {d m n : Nat} (hm : d ∣ m) (hn : d ∣ n) (h : m < n) : m + d ≤ n := by
  have hle := Nat.le_of_dvd (Nat.sub_pos_of_lt h) (Nat.dvd_sub hn hm)
  omega

namespace Nested

theorem size_dvd_start (hn : Nested total regions) (hb : b.Within regions) : b.size ∣ b.start := by
  rw [hb.start_eq, hn.start b.region hb.region hb.active, Nat.zero_add]
  exact Nat.dvd_mul_left _ _

theorem size_dvd_stop (hn : Nested total regions) (hb : b.Within regions) : b.size ∣ b.stop :=
  Nat.dvd_add (hn.size_dvd_start hb) (Nat.dvd_refl _)

theorem size_dvd (hn : Nested total regions) (hb : b.Within regions) (hx : x.Within regions)
    (hle : x.size ≤ b.size) : x.size ∣ b.size := by
  rcases hn.divides x.region hx.region b.region hb.region hx.active hb.active with h | h
  · exact h
  · exact dvd_of_eq (Nat.le_antisymm hle (Nat.le_of_dvd hx.size_pos h))

/-- Of two blocks that share an address the smaller lies inside the larger. -/
theorem inside (hn : Nested total regions) (hb : b.Within regions) (hx : x.Within regions)
    (hle : x.size ≤ b.size) (hib : b.start ≤ i ∧ i < b.stop) (hix : x.start ≤ i ∧ i < x.stop) :
    b.start ≤ x.start ∧ x.stop ≤ b.stop := by
  have hd := hn.size_dvd hb hx hle
  have hxs : x.stop = x.start + x.size := rfl
  constructor
  · by_contra hlt
    have := add_le_of_dvd (hn.size_dvd_start hx) (hd.trans (hn.size_dvd_start hb)) (by omega)
    omega
  · by_contra hlt
    have := add_le_of_dvd (hd.trans (hn.size_dvd_stop hb)) (hn.size_dvd_stop hx) (by omega)
    omega

theorem exists_block (hn : Nested total regions) (ht : total < addressSpace) (hr : r ∈ regions)
    (hact : r.active = true) (hd : r.blockSize ∣ addr) (ha : addr < total) :
    ∃ b : Block, b.Within regions ∧ b.start = addr ∧ b.size = r.blockSize := by
  obtain ⟨k, rfl⟩ := hd
  have hstart := hn.start r hr hact
  have hstop := hn.stop r hr hact
  have hindex : k < r.blockCount := by
    unfold Region.stop at hstop
    rw [hstart, Nat.zero_add] at hstop
    rw [← hstop] at ha
    exact Nat.lt_of_mul_lt_mul_left ha
  have hplace : r.start + k * r.blockSize = r.blockSize * k := by
    rw [hstart, Nat.zero_add, Nat.mul_comm]
  have hw : Block.Within regions ⟨r, k⟩ := by
    refine ⟨hr, hact, hindex, ?_⟩
    dsimp only
    omega
  exact ⟨⟨r, k⟩, hw, hw.start_eq.trans hplace, rfl⟩

end Nested

namespace Finest

theorem pos (hs : Finest regions s) : 0 < s := by
  obtain ⟨r, _, hact, rfl⟩ := hs.used
  exact Region.blockSize_pos hact

theorem dvd_size (hs : Finest regions s) (hn : Nested total regions) (hb : b.Within regions) :
    s ∣ b.size := by
  obtain ⟨r, hr, hact, rfl⟩ := hs.used
  rcases hn.divides r hr b.region hb.region hact hb.active with h | h
  · exact h
  · have hle := hs.least b.region hb.region hb.active
    have hpos := Region.blockSize_pos hact
    exact dvd_of_eq (Nat.le_antisymm hle (Nat.le_of_dvd hpos h))

theorem dvd_start (hs : Finest regions s) (hn : Nested total regions) (hb : b.Within regions) :
    s ∣ b.start :=
  (hs.dvd_size hn hb).trans (hn.size_dvd_start hb)

theorem dvd_stop (hs : Finest regions s) (hn : Nested total regions) (hb : b.Within regions) :
    s ∣ b.stop :=
  (hs.dvd_size hn hb).trans (hn.size_dvd_stop hb)

theorem exists_block (hs : Finest regions s) (hn : Nested total regions) (ht : total < addressSpace)
    (hd : s ∣ addr) (ha : addr < total) :
    ∃ b : Block, b.Within regions ∧ b.start = addr ∧ b.size = s := by
  obtain ⟨r, hr, hact, rfl⟩ := hs.used
  exact hn.exists_block ht hr hact hd ha

/-- A block that holds an address holds the whole cell of the smallest size around it. -/
theorem cell_inside (hs : Finest regions s) (hn : Nested total regions) (hb : b.Within regions)
    (hib : b.start ≤ i ∧ i < b.stop) : b.start ≤ i / s * s ∧ i / s * s + s ≤ b.stop := by
  have hpos := hs.pos
  have hlo := Nat.div_mul_le_self i s
  have hhi := Nat.lt_div_mul_add hpos (a := i)
  have hcell : s ∣ i / s * s := Nat.dvd_mul_left _ _
  constructor
  · by_contra hlt
    have := add_le_of_dvd hcell (hs.dvd_start hn hb) (by omega)
    omega
  · exact add_le_of_dvd hcell (hs.dvd_stop hn hb) (by omega)

end Finest

namespace Plan

variable {bs : List Block} {p : Plan}

/-- The multiple of `s` at or behind `n` is the only one that close. -/
theorem eq_round_up {s n a : Nat} (hpos : 0 < s) (hd : s ∣ a) (hlo : n ≤ a) (hhi : a < n + s) :
    a = (n + s - 1) / s * s := by
  obtain ⟨k, rfl⟩ := hd
  have hk : (n + s - 1) / s = k := by
    apply Nat.div_eq_of_lt_le
    · rw [Nat.mul_comm]
      omega
    · rw [Nat.add_mul, Nat.one_mul, Nat.mul_comm]
      omega
  rw [hk, Nat.mul_comm]

/-- The head starts with the cell around the start, and reaches past the range only if it is that
cell. -/
theorem selectHead_nested (hn : Nested total regions) (hs : Finest regions s)
    (ht : total < addressSpace) (hstart : start < total)
    (h : selectHead regions start stop = some b) :
    b.start = start / s * s ∧ (b.stop ≤ stop ∨ b.stop = start / s * s + s) := by
  obtain ⟨hb, hlo, hhi⟩ := selectHead_some h
  have hcell := Nat.div_mul_le_self start s
  have hnext := Nat.lt_div_mul_add hs.pos (a := start)
  obtain ⟨f, hf, hfs, hfsize⟩ := hs.exists_block hn ht (Nat.dvd_mul_left s (start / s)) (by omega)
  have hfstop : f.stop = start / s * s + s := by rw [Block.stop, hfs, hfsize]
  have hleast := selectHead_least h hf (by omega) (by omega) (by omega)
  have hin := hs.cell_inside hn hb ⟨hlo, hhi⟩
  unfold waste at hleast
  omega

theorem stop_cons : Plan.stop ⟨b :: bs⟩ = cursorAfter b.stop bs := by
  unfold Plan.stop cursorAfter
  rw [List.getLast?_cons]
  cases bs.getLast? <;> rfl

theorem stop_concat : Plan.stop ⟨bs ++ [b]⟩ = b.stop := by
  simp [Plan.stop]

/-- Without a last block the phases end inside the range or with the cell around the start; a last
block is one of the smallest. -/
theorem phases_stop_lt (hn : Nested total regions) (hs : Finest regions s)
    (ht : total < addressSpace) (hlt : start < stop) (hle : stop ≤ total)
    (h : phases regions start stop = .ok bs) : Plan.stop ⟨bs⟩ < stop + s := by
  obtain ⟨head, hhead, hcases⟩ := phases_ok h
  rcases hcases with ⟨rfl, _⟩ | ⟨tail, rfl, hshort, htail, _⟩
  · have hpos := hs.pos
    have hcell := Nat.div_mul_le_self start s
    have hfits := (selectHead_nested hn hs ht (by omega) hhead).2
    have hmiddle := cursorAfter_middle_le regions stop head.stop
    rw [stop_cons]
    omega
  · obtain ⟨hw, hstart⟩ := selectTail_some htail
    obtain ⟨f, hf, hfs, hfsize⟩ :=
      hs.exists_block hn ht (hs.dvd_start hn hw) (by omega)
    have hsmall := selectTail_smallest htail hf (hfs.trans hstart)
    have hstop : tail.stop = tail.start + tail.size := rfl
    rw [stop_concat]
    omega

/-- Planning goes from the cell around the start to the cell around the end. -/
theorem phases_nested (hn : Nested total regions) (hs : Finest regions s)
    (ht : total < addressSpace) (hlt : start < stop) (hle : stop ≤ total) :
    ∃ bs, phases regions start stop = .ok bs ∧ Plan.start ⟨bs⟩ = start / s * s ∧
      Plan.stop ⟨bs⟩ = (stop + s - 1) / s * s := by
  obtain ⟨r, hr, hact, _⟩ := hs.used
  have hrstart := hn.start r hr hact
  have hrstop := hn.stop r hr hact
  cases h : phases regions start stop with
  | error e =>
    -- there is no dead end: wherever a block ends inside the range a smallest one starts
    obtain ⟨b, hdead, _⟩ := dead_end_of_phases hr hact (by omega) (by omega) hlt (by omega) h
    have hshort := hdead.short
    obtain ⟨f, hf, hfs, _⟩ := hs.exists_block hn ht (hs.dvd_stop hn hdead.within) (by omega)
    exact absurd hfs (hdead.stuck f hf)
  | ok bs =>
    obtain ⟨c, hreach, hc⟩ := phases_reaches hlt h
    have hcovers := hreach.covers hc
    obtain ⟨z, hz, hzstop⟩ := hcovers.stop_eq
    have hd : s ∣ Plan.stop ⟨bs⟩ := by
      rw [hzstop]
      exact hs.dvd_stop hn (hcovers.within z (List.mem_of_getLast? hz))
    refine ⟨bs, rfl, ?_, ?_⟩
    · obtain ⟨head, hhead, hcases⟩ := phases_ok h
      have hstart := (selectHead_nested hn hs ht (by omega) hhead).1
      rcases hcases with ⟨rfl, _⟩ | ⟨tail, rfl, _⟩ <;> exact hstart
    · exact eq_round_up hs.pos hd hcovers.le_stop (phases_stop_lt hn hs ht hlt hle h)

end Plan

/-- The addresses that erasing the blocks erases. -/
def footprint (bs : List Block) : Finset Nat :=
  bs.toFinset.biUnion fun b => Finset.Ico b.start b.stop

/-- Blocks of the table that together hold `[start, stop)`. -/
structure Envelops (regions : List Region) (start stop : Nat) (bs : List Block) : Prop where
  within : ∀ b ∈ bs, b.Within regions
  holds : ∀ i, start ≤ i → i < stop → ∃ b ∈ bs, b.start ≤ i ∧ i < b.stop

/-- Blocks of the table that make up `[start, stop)`, none of them meeting another. -/
structure Tiles (regions : List Region) (start stop : Nat) (bs : List Block) : Prop
    extends Envelops regions start stop bs where
  inside : ∀ b ∈ bs, start ≤ b.start ∧ b.stop ≤ stop
  apart : bs.Pairwise fun a b => a.stop ≤ b.start ∨ b.stop ≤ a.start

variable {bs : List Block} {p : Plan}

theorem mem_footprint : i ∈ footprint bs ↔ ∃ b ∈ bs, b.start ≤ i ∧ i < b.stop := by
  simp [footprint]

theorem Plan.Covers.footprint_eq (h : p.Covers regions start stop) :
    footprint p.blocks = Finset.Ico p.start p.stop := by
  ext i
  rw [mem_footprint, Finset.mem_Ico, h.mem_iff]

theorem Plan.Covers.card_footprint (h : p.Covers regions start stop) :
    (footprint p.blocks).card = p.erasedBytes := by
  rw [h.footprint_eq, Nat.card_Ico]
  rfl

theorem Plan.Covers.envelops (h : p.Covers regions start stop) :
    Envelops regions start stop p.blocks := by
  refine ⟨h.within, fun i hlo hhi => ?_⟩
  have hstart := h.start_le
  have hstop := h.le_stop
  exact (h.mem_iff i).mp ⟨by omega, by omega⟩

/-- A cover reaches as far as the cells around the start and around the last address. -/
theorem Envelops.holds_cells (h : Envelops regions start stop bs) (hn : Nested total regions)
    (hs : Finest regions s) (hlt : start < stop) (hlo : start / s * s ≤ i)
    (hhi : i < (stop + s - 1) / s * s) : i ∈ footprint bs := by
  rw [mem_footprint]
  by_cases hbefore : i < start
  · obtain ⟨b, hb, hib⟩ := h.holds start (Nat.le_refl _) hlt
    have hcell := (hs.cell_inside hn (h.within b hb) hib).1
    exact ⟨b, hb, by omega, by omega⟩
  · by_cases hbehind : stop ≤ i
    · obtain ⟨b, hb, hib⟩ := h.holds (stop - 1) (by omega) (by omega)
      have hcell := (hs.cell_inside hn (h.within b hb) hib).2
      have hround : (stop + s - 1) / s = (stop - 1) / s + 1 := by
        rw [← Nat.add_div_right _ hs.pos]
        congr 1
        omega
      rw [hround, Nat.add_mul, Nat.one_mul] at hhi
      exact ⟨b, hb, by omega, by omega⟩
    · exact h.holds i (by omega) (by omega)

namespace Plan

theorem Covers.eq_of_meet {a : Block} (h : p.Covers regions start stop) (ha : a ∈ p.blocks)
    (hb : b ∈ p.blocks) (hia : a.start ≤ i ∧ i < a.stop) (hib : b.start ≤ i ∧ i < b.stop) :
    a = b := by
  by_contra hne
  have hapart : p.blocks.Pairwise fun a b => a.stop ≤ b.start ∨ b.stop ≤ a.start :=
    (pairwise_of_chained h.within h.chained).imp Or.inl
  have : Std.Symm fun a b : Block => a.stop ≤ b.start ∨ b.stop ≤ a.start := ⟨fun _ _ => Or.symm⟩
  have hab := hapart.forall ha hb hne
  omega

theorem Covers.tiles (h : p.Covers regions start stop) (hstart : p.start = start)
    (hstop : p.stop = stop) : Tiles regions start stop p.blocks := by
  refine ⟨h.envelops, fun b hb => ?_, (pairwise_of_chained h.within h.chained).imp Or.inl⟩
  have := h.start_le_of_mem hb
  have := h.stop_le_of_mem hb
  omega

/-- A block inside the range that holds the start of a block of the plan reaches no further than
that block: else it would be wider than the block of the plan that holds its own start. -/
theorem Covers.stop_le_of_holds (h : p.Covers regions start stop) (hn : Nested total regions)
    (hstart : p.start = start) (hstop : p.stop = stop)
    (hwide : ∀ b ∈ p.blocks, Widest regions stop b) (hx : x.Within regions)
    (hin : start ≤ x.start ∧ x.stop ≤ stop) (hb : b ∈ p.blocks)
    (hbx : x.start ≤ b.start ∧ b.start < x.stop) : x.stop ≤ b.stop := by
  have hxlt := hx.start_lt_stop
  have hblt := (h.within b hb).start_lt_stop
  obtain ⟨a, ha, hax⟩ := (h.mem_iff x.start).mp ⟨by omega, by omega⟩
  have hw := h.within a ha
  have hsize : x.size ≤ a.size := by
    by_contra hsmall
    have hsub := hn.inside hx hw (by omega) ⟨Nat.le_refl _, hxlt⟩ hax
    exact hsmall (hwide a ha x hx (by omega) hin.2)
  have hsub := hn.inside hw hx hsize hax ⟨Nat.le_refl _, hxlt⟩
  have hab : a = b := h.eq_of_meet ha hb (i := b.start) (by omega) ⟨Nat.le_refl _, hblt⟩
  rw [← hab]
  exact hsub.2

/-- Each block of the plan starts in some tile, and no tile holds the starts of two. -/
theorem Covers.length_le (h : p.Covers regions start stop) (hn : Nested total regions)
    (hstart : p.start = start) (hstop : p.stop = stop)
    (hwide : ∀ b ∈ p.blocks, Widest regions stop b) (ht : Tiles regions start stop bs) :
    p.blocks.length ≤ bs.length := by
  rw [← List.toFinset_card_of_nodup h.nodup]
  refine Nat.le_trans ?_ (List.toFinset_card_le bs)
  refine Finset.card_le_card_of_forall_subsingleton
    (fun b x => x.start ≤ b.start ∧ b.start < x.stop) (fun b hb => ?_) fun x hx => ?_
  · rw [List.mem_toFinset] at hb
    have hlt := (h.within b hb).start_lt_stop
    have hlo := h.start_le_of_mem hb
    have hhi := h.stop_le_of_mem hb
    obtain ⟨x, hx, hbx⟩ := ht.holds b.start (by omega) (by omega)
    exact ⟨x, List.mem_toFinset.mpr hx, hbx⟩
  · rw [List.mem_toFinset] at hx
    rintro a ⟨ha, hax⟩ b ⟨hb, hbx⟩
    rw [List.mem_toFinset] at ha hb
    have hreach {b : Block} (hb : b ∈ p.blocks) (hbx : x.start ≤ b.start ∧ b.start < x.stop) :
        x.stop ≤ b.stop :=
      h.stop_le_of_holds hn hstart hstop hwide (ht.within x hx) (ht.inside x hx) hb hbx
    have hxa := hreach ha hax
    have hxb := hreach hb hbx
    exact h.eq_of_meet ha hb (i := max a.start b.start) (by omega) (by omega)

/-- On a nested table every range has a plan, which erases just the cells of the smallest size that
the range meets; no cover of the range erases less. A range in step with the smallest size is
filled exactly, and with as few blocks as any tiling has. -/
theorem make_nested_optimal (hn : Nested total regions) (hs : Finest regions s)
    (ht : total < addressSpace) (hlen : 0 < len) (hin : start + len ≤ total) :
    ∃ p, make regions start len false = .ok p ∧ p.start = start / s * s ∧
      p.stop = (start + len + s - 1) / s * s ∧
      (∀ bs, Envelops regions start (start + len) bs → p.erasedBytes ≤ (footprint bs).card) ∧
      (s ∣ start → s ∣ start + len →
        make regions start len true = .ok p ∧ Tiles regions start (start + len) p.blocks ∧
          ∀ bs, Tiles regions start (start + len) bs → p.blocks.length ≤ bs.length) := by
  have hlt : start < start + len := by omega
  obtain ⟨blocks, hphases, hstart, hstop⟩ := phases_nested hn hs ht hlt hin
  have hmake : make regions start len false = .ok ⟨blocks⟩ := by
    rw [make_of_coveringBlocks hlen, coveringBlocks, hphases]
    rfl
  have hcovers := make_covers hmake
  refine ⟨⟨blocks⟩, hmake, hstart, hstop, fun bs hbs => ?_, fun hdstart hdstop => ?_⟩
  · rw [← hcovers.card_footprint, hcovers.footprint_eq, hstart, hstop]
    refine Finset.card_le_card fun i hi => ?_
    rw [Finset.mem_Ico] at hi
    exact hbs.holds_cells hn hs hlt hi.1 hi.2
  · rw [Nat.div_mul_cancel hdstart] at hstart
    rw [← eq_round_up hs.pos hdstop (Nat.le_refl _) (Nat.lt_add_of_pos_right hs.pos)] at hstop
    refine ⟨make_exact hmake hstart hstop, hcovers.tiles hstart hstop, fun bs hbs => ?_⟩
    have hwide : ∀ b ∈ blocks, Widest regions (start + len) b := fun b hb =>
      phases_widest hphases (by omega) hb
    exact hcovers.length_le hn hstart hstop hwide hbs

end Plan

theorem Chip.catalog_nested : ∀ c ∈ Chip.catalog, Nested c.size c.regions := by
  intro c hc
  simp only [Chip.catalog, List.mem_cons, List.not_mem_nil, or_false] at hc
  rcases hc with rfl | rfl | rfl | rfl | rfl <;> exact ⟨by decide, by decide, by decide⟩

/-- Sectors up to a larger block, larger blocks, and sectors again. -/
theorem Plan.make_nested_optimal_builtin :
    ∃ p, Plan.make Chip.w25q64w.regions 0x7000 0x22000 true = .ok p ∧
      (∀ bs, Envelops Chip.w25q64w.regions 0x7000 0x29000 bs →
        p.erasedBytes ≤ (footprint bs).card) ∧
      ∀ bs, Tiles Chip.w25q64w.regions 0x7000 0x29000 bs → p.blocks.length ≤ bs.length := by
  have hfinest : Finest Chip.w25q64w.regions 0x1000 :=
    ⟨⟨⟨0, 0x1000, 0x800, .erase20⟩, by decide, rfl, rfl⟩, by decide⟩
  have hnested := Chip.catalog_nested Chip.w25q64w (by simp [Chip.catalog])
  have hlen : 0 < 0x22000 := by decide
  have hin : 0x7000 + 0x22000 ≤ Chip.w25q64w.size := by decide
  obtain ⟨p, _, _, _, hleast, hexact⟩ :=
    Plan.make_nested_optimal hnested hfinest (by decide) hlen hin
  obtain ⟨hmake, _, hfewest⟩ := hexact (by decide) (by decide)
  exact ⟨p, hmake, hleast, hfewest⟩

end NorFlash
