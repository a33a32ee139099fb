import NorFlash.Proofs.Choice

namespace NorFlash

variable {regions part : List Region} {r : Region} {b b' : Block} {addr start stop len cursor : Nat}

theorem Block.Within.mono (h : b.Within part) (hsub : part ⊆ regions) : b.Within regions :=
  ⟨hsub h.region, h.active, h.index, h.fits⟩

namespace Plan

/-- Of the blocks of the table that are fit for a place this is the one to take: none ranks above
it, and it ranks above each that belongs to an earlier region. -/
structure Foremost (regions : List Region) (Fit : Block → Prop) (Above : Block → Block → Prop)
    (b : Block) : Prop where
  within : b.Within regions
  fit : Fit b
  best : ∀ x : Block, x.Within regions → Fit x → ¬Above x b
  earliest : ∃ before after, regions = before ++ b.region :: after ∧
    ∀ x : Block, x.Within before → Fit x → Above b x

/-- Less is erased outside the range, or as much by a larger block. -/
def WastesLess (start stop : Nat) (x b : Block) : Prop :=
  waste start stop x < waste start stop b ∨
    waste start stop x = waste start stop b ∧ b.size < x.size

def Larger (x b : Block) : Prop := b.size < x.size

def Smaller (x b : Block) : Prop := x.size < b.size

/-- The first block, which holds the start of the range. -/
abbrev Leads (regions : List Region) (start stop : Nat) : Block → Prop :=
  Foremost regions (fun x => x.start ≤ start ∧ start < x.stop) (WastesLess start stop)

/-- The blocks from the cursor on, and the address where they end. As long as a block starts at the
cursor and ends inside the range, the largest of these is taken. -/
inductive Follows (regions : List Region) (stop : Nat) : Nat → List Block → Nat → Prop where
  | reached {cursor : Nat} (h : stop ≤ cursor) : Follows regions stop cursor [] cursor
  | spent {cursor : Nat} (h : cursor < stop)
      (long : ∀ x : Block, x.Within regions → x.start = cursor → stop < x.stop) :
      Follows regions stop cursor [] cursor
  | next {cursor last : Nat} {b : Block} {bs : List Block} (h : cursor < stop)
      (hb : Foremost regions (fun x => x.start = cursor ∧ x.stop ≤ stop) Larger b)
      (rest : Follows regions stop b.stop bs last) : Follows regions stop cursor (b :: bs) last

/-- The last block, which is taken where no block that starts at the cursor ends inside the
range. -/
abbrev Closes (regions : List Region) (cursor : Nat) : Block → Prop :=
  Foremost regions (fun x => x.start = cursor) Smaller

/-- The single block that stands in for all others. -/
abbrev StandsIn (regions : List Region) (start stop : Nat) : Block → Prop :=
  Foremost regions (fun x => x.start ≤ start ∧ stop ≤ x.stop) Smaller

/-- What the phases come to: blocks, or the address at which they lead nowhere. -/
inductive Phased (regions : List Region) (start stop : Nat) : Except Nat (List Block) → Prop where
  | bare (h : ∀ r ∈ regions, r.active = true → ¬(r.start ≤ start ∧ start < r.stop)) :
      Phased regions start stop (.error start)
  | reached {head : Block} {bs : List Block} {last : Nat} (hhead : Leads regions start stop head)
      (hbs : Follows regions stop head.stop bs last) (h : stop ≤ last) :
      Phased regions start stop (.ok (head :: bs))
  | closed {head tail : Block} {bs : List Block} {last : Nat}
      (hhead : Leads regions start stop head) (hbs : Follows regions stop head.stop bs last)
      (h : last < stop) (htail : Closes regions last tail) :
      Phased regions start stop (.ok (head :: bs ++ [tail]))
  | stuck {head : Block} {bs : List Block} {last : Nat} (hhead : Leads regions start stop head)
      (hbs : Follows regions stop head.stop bs last) (h : last < stop)
      (none : ∀ x : Block, x.Within regions → x.start ≠ last) :
      Phased regions start stop (.error last)

/-- The rule. A range is refused only where the phases lead nowhere and no block holds all of it;
the refusal names the address at which they do. -/
inductive Ruled (regions : List Region) (start stop : Nat) : Except Error Plan → Prop where
  | phased {bs : List Block} (h : Phased regions start stop (.ok bs)) :
      Ruled regions start stop (.ok ⟨bs⟩)
  | enclosed {addr : Nat} {b : Block} (h : Phased regions start stop (.error addr))
      (hb : StandsIn regions start stop b) : Ruled regions start stop (.ok ⟨[b]⟩)
  | refused {addr : Nat} (h : Phased regions start stop (.error addr))
      (none : ∀ x : Block, x.Within regions → ¬(x.start ≤ start ∧ stop ≤ x.stop)) :
      Ruled regions start stop (.error (.noCoverage addr))

section Unique

variable {Fit : Block → Prop} {Above : Block → Block → Prop} {bs bs' : List Block}
  {last last' : Nat}

/-- A region has one block for each address. -/
theorem eq_of_region (hb : b.Within regions) (hb' : b'.Within regions) (hr : b.region = b'.region)
    (ha : addr < addressSpace) (hin : b.start ≤ addr ∧ addr < b.stop)
    (hin' : b'.start ≤ addr ∧ addr < b'.stop) : b = b' := by
  have h := hb.blockHolding? hin.1 hin.2 ha
  rw [hr, hb'.blockHolding? hin'.1 hin'.2 ha] at h
  exact (Option.some.inj h).symm

/-- Of two foremost blocks neither belongs to a region before that of the other. -/
theorem Foremost.not_mem_before {before : List Region} (h : Foremost regions Fit Above b)
    (h' : Foremost regions Fit Above b')
    (hbefore : ∀ x : Block, x.Within before → Fit x → Above b' x) : b.region ∉ before := by
  intro hmem
  have hb : b.Within before := ⟨hmem, h.within.active, h.within.index, h.within.fits⟩
  exact h.best b' h'.within h'.fit (hbefore b hb h.fit)

theorem Foremost.unique (h : Foremost regions Fit Above b) (h' : Foremost regions Fit Above b')
    (ha : addr < addressSpace)
    (hfit : ∀ x : Block, x.Within regions → Fit x → x.start ≤ addr ∧ addr < x.stop) : b = b' := by
  obtain ⟨before, after, hsplit, hbefore⟩ := h.earliest
  obtain ⟨before', after', hsplit', hbefore'⟩ := h'.earliest
  have hr : b.region = b'.region := by
    rcases List.append_eq_append_iff.mp (hsplit.symm.trans hsplit') with
      ⟨mid, hmid, htail⟩ | ⟨mid, hmid, htail⟩
    · cases mid with
      | nil => exact (List.cons.inj htail).1
      | cons r mid =>
        refine absurd ?_ (h.not_mem_before h' hbefore')
        simp [hmid, (List.cons.inj htail).1]
    · cases mid with
      | nil => exact (List.cons.inj htail).1.symm
      | cons r mid =>
        refine absurd ?_ (h'.not_mem_before h hbefore)
        simp [hmid, (List.cons.inj htail).1]
  exact eq_of_region h.within h'.within hr ha (hfit b h.within h.fit) (hfit b' h'.within h'.fit)

theorem Leads.unique (h : Leads regions start stop b) (h' : Leads regions start stop b')
    (ha : start < addressSpace) : b = b' :=
  Foremost.unique h h' ha fun _ _ hx => hx

theorem Closes.unique (h : Closes regions cursor b) (h' : Closes regions cursor b')
    (ha : cursor < addressSpace) : b = b' := by
  refine Foremost.unique h h' ha fun x hx hstart => ?_
  have hlt := hx.start_lt_stop
  omega

theorem StandsIn.unique (h : StandsIn regions start stop b) (h' : StandsIn regions start stop b')
    (hs : start < stop) (ha : start < addressSpace) : b = b' := by
  refine Foremost.unique h h' ha fun x _ hx => ?_
  omega

/-- From one cursor one chain of blocks follows. -/
theorem Follows.unique (h : Follows regions stop cursor bs last)
    (h' : Follows regions stop cursor bs' last') (ha : stop ≤ addressSpace) :
    bs = bs' ∧ last = last' := by
  induction h generalizing bs' with
  | reached hle =>
    cases h' with
    | reached => exact ⟨rfl, rfl⟩
    | spent hlt => omega
    | next hlt => omega
  | spent hlt long =>
    cases h' with
    | reached hle => omega
    | spent => exact ⟨rfl, rfl⟩
    | next _ hb =>
      have hlong := long _ hb.within hb.fit.1
      have hfits := hb.fit.2
      omega
  | next hlt hb rest ih =>
    cases h' with
    | reached hle => omega
    | spent _ long =>
      have hlong := long _ hb.within hb.fit.1
      have hfits := hb.fit.2
      omega
    | next _ hb' rest' =>
      obtain rfl := Foremost.unique hb hb' (lt_of_lt_of_le hlt ha) fun x hx hfit => by
        have hpos := hx.start_lt_stop
        omega
      obtain ⟨rfl, rfl⟩ := ih rest'
      exact ⟨rfl, rfl⟩

variable {outcome outcome' : Except Nat (List Block)} {result result' : Except Error Plan}

/-- A head belongs to a region that holds the start. -/
theorem Leads.not_bare (h : Leads regions start stop b)
    (hbare : ∀ r ∈ regions, r.active = true → ¬(r.start ≤ start ∧ start < r.stop)) : False := by
  have hw := h.within
  have hstart := hw.start_eq
  have hstop := hw.stop_le
  have hfit := h.fit
  exact hbare b.region hw.region hw.active (by omega)

theorem Phased.unique (h : Phased regions start stop outcome)
    (h' : Phased regions start stop outcome') (hs : start < stop) (ha : stop ≤ addressSpace) :
    outcome = outcome' := by
  have same {head head' : Block} {bs bs' : List Block} {last last' : Nat}
      (hhead : Leads regions start stop head) (hbs : Follows regions stop head.stop bs last)
      (hhead' : Leads regions start stop head') (hbs' : Follows regions stop head'.stop bs' last') :
      head = head' ∧ bs = bs' ∧ last = last' := by
    obtain rfl := hhead.unique hhead' (by omega)
    exact ⟨rfl, hbs.unique hbs' ha⟩
  cases h with
  | bare hbare =>
    cases h' with
    | bare => rfl
    | reached hhead' | closed hhead' | stuck hhead' => exact (hhead'.not_bare hbare).elim
  | reached hhead hbs hle =>
    cases h' with
    | bare hbare => exact (hhead.not_bare hbare).elim
    | reached hhead' hbs' =>
      obtain ⟨rfl, rfl, rfl⟩ := same hhead hbs hhead' hbs'
      rfl
    | closed hhead' hbs' hlt | stuck hhead' hbs' hlt =>
      obtain ⟨rfl, rfl, rfl⟩ := same hhead hbs hhead' hbs'
      omega
  | closed hhead hbs hlt htail =>
    cases h' with
    | bare hbare => exact (hhead.not_bare hbare).elim
    | reached hhead' hbs' hle =>
      obtain ⟨rfl, rfl, rfl⟩ := same hhead hbs hhead' hbs'
      omega
    | closed hhead' hbs' _ htail' =>
      obtain ⟨rfl, rfl, rfl⟩ := same hhead hbs hhead' hbs'
      rw [htail.unique htail' (by omega)]
    | stuck hhead' hbs' _ none =>
      obtain ⟨rfl, rfl, rfl⟩ := same hhead hbs hhead' hbs'
      exact absurd htail.fit (none _ htail.within)
  | stuck hhead hbs hlt none =>
    cases h' with
    | bare hbare => exact (hhead.not_bare hbare).elim
    | reached hhead' hbs' hle =>
      obtain ⟨rfl, rfl, rfl⟩ := same hhead hbs hhead' hbs'
      omega
    | closed hhead' hbs' _ htail' =>
      obtain ⟨rfl, rfl, rfl⟩ := same hhead hbs hhead' hbs'
      exact absurd htail'.fit (none _ htail'.within)
    | stuck hhead' hbs' =>
      obtain ⟨rfl, rfl, rfl⟩ := same hhead hbs hhead' hbs'
      rfl

theorem Ruled.unique (h : Ruled regions start stop result)
    (h' : Ruled regions start stop result') (hs : start < stop) (ha : stop ≤ addressSpace) :
    result = result' := by
  cases h with
  | phased h =>
    cases h' with
    | phased h' =>
      cases h.unique h' hs ha
      rfl
    | enclosed h' | refused h' => cases h.unique h' hs ha
  | enclosed h hb =>
    cases h' with
    | phased h' => cases h.unique h' hs ha
    | enclosed _ hb' => rw [hb.unique hb' hs (by omega)]
    | refused _ none => exact absurd hb.fit (none _ hb.within)
  | refused h none =>
    cases h' with
    | phased h' => cases h.unique h' hs ha
    | enclosed _ hb' => exact absurd hb'.fit (none _ hb'.within)
    | refused h' =>
      cases h.unique h' hs ha
      rfl

end Unique

section Choice

variable {α : Type} {beats : α → α → Bool}

/-- What is chosen beats all that stands before it. -/
theorem Ranked.foldl_first (h : Ranked beats) (a : α) (xs : List α) :
    ∃ before after,
      a :: xs = before ++ xs.foldl (fun b y => if beats y b then y else b) a :: after ∧
        ∀ x ∈ before, beats (xs.foldl (fun b y => if beats y b then y else b) a) x = true := by
  induction xs generalizing a with
  | nil => exact ⟨[], [], rfl, by simp⟩
  | cons y ys ih =>
    rw [List.foldl_cons]
    split
    case isTrue hbeats =>
      obtain ⟨before, after, hsplit, hbefore⟩ := ih y
      have hy := h.foldl_unbeaten y ys y List.mem_cons_self
      refine ⟨a :: before, after, congrArg (a :: ·) hsplit, fun x hx => ?_⟩
      rcases List.mem_cons.mp hx with rfl | hx
      · -- what keeps its place before the last choice would keep it before the next one
        by_contra hno
        have hkept := h.trans y _ x hy (by simpa using hno)
        simp [hbeats] at hkept
      · exact hbefore x hx
    case isFalse hkeeps =>
      obtain ⟨before, after, hsplit, hbefore⟩ := ih a
      cases before with
      | nil =>
        have ha := (List.cons.inj hsplit).1
        exact ⟨[], y :: ys, congrArg (· :: y :: ys) ha, by simp⟩
      | cons a' before =>
        obtain ⟨rfl, hys⟩ := List.cons.inj hsplit
        refine ⟨a :: y :: before, after, congrArg (a :: y :: ·) hys, fun x hx => ?_⟩
        have ha := hbefore a List.mem_cons_self
        rcases List.mem_cons.mp hx with rfl | hx
        · exact ha
        rcases List.mem_cons.mp hx with rfl | hx
        · by_contra hno
          have hlost := h.trans _ x a (by simpa using hno) (by simpa using hkeeps)
          simp [ha] at hlost
        · exact hbefore x (List.mem_cons_of_mem a hx)

theorem Ranked.best?_first (h : Ranked beats) {xs : List α} {b : α}
    (hb : best? beats xs = some b) :
    ∃ before after, xs = before ++ b :: after ∧ ∀ x ∈ before, beats b x = true := by
  cases xs with
  | nil => cases hb
  | cons a xs =>
    simp only [best?, Option.some.injEq] at hb
    subst hb
    exact h.foldl_first a xs

theorem eq_nil_of_best?_none {xs : List α} (h : best? beats xs = none) : xs = [] := by
  cases xs with
  | nil => rfl
  | cons a xs => cases h

end Choice

/-- What a search finds in each region is the block that is fit, if there is one. -/
def Finds (regions : List Region) (Fit : Block → Prop) (find : Region → Option Block) : Prop :=
  ∀ r ∈ regions, ∀ x, find r = some x ↔ x.region = r ∧ x.Within regions ∧ Fit x

section Search

variable {Fit : Block → Prop} {Above : Block → Block → Prop} {find : Region → Option Block}
  {beats : Block → Block → Bool}

theorem Finds.mem_iff (h : Finds regions Fit find) :
    b ∈ regions.filterMap find ↔ b.Within regions ∧ Fit b := by
  rw [List.mem_filterMap]
  constructor
  · rintro ⟨r, hr, hb⟩
    exact ((h r hr b).mp hb).2
  · rintro ⟨hw, hfit⟩
    exact ⟨b.region, hw.region, (h _ hw.region b).mpr ⟨rfl, hw, hfit⟩⟩

theorem Finds.not_fit (h : Finds regions Fit find)
    (hnone : best? beats (regions.filterMap find) = none) (hw : b.Within regions) : ¬Fit b := by
  intro hfit
  have hmem := h.mem_iff.mpr ⟨hw, hfit⟩
  rw [eq_nil_of_best?_none hnone] at hmem
  cases hmem

/-- The best of what is found region by region is the foremost block. -/
theorem Finds.foremost (h : Finds regions Fit find) (hranked : Ranked beats)
    (habove : ∀ x y, beats x y = true ↔ Above x y)
    (hb : best? beats (regions.filterMap find) = some b) : Foremost regions Fit Above b := by
  obtain ⟨hw, hfit⟩ := h.mem_iff.mp (mem_of_best? hb)
  refine ⟨hw, hfit, ?_, ?_⟩
  · intro x hx hxfit
    rw [← habove, hranked.unbeaten hb (h.mem_iff.mpr ⟨hx, hxfit⟩)]
    exact Bool.false_ne_true
  · obtain ⟨before, after, hsplit, hbefore⟩ := hranked.best?_first hb
    obtain ⟨front, back, hregions, hfront, hback⟩ := List.filterMap_eq_append_iff.mp hsplit
    obtain ⟨idle, r, rest, rfl, hidle, hr, _⟩ := List.filterMap_eq_cons_iff.mp hback
    subst hregions
    obtain ⟨rfl, _⟩ := (h r (by simp) b).mp hr
    refine ⟨front ++ idle, rest, by simp, fun x hx hxfit => (habove b x).mp ?_⟩
    have hsub : front ++ idle ⊆ front ++ (idle ++ b.region :: rest) := by
      rw [← List.append_assoc]
      exact List.subset_append_left _ _
    have hfound : find x.region = some x :=
      (h _ (hsub hx.region) x).mpr ⟨rfl, hx.mono hsub, hxfit⟩
    rcases List.mem_append.mp hx.region with hmem | hmem
    · exact hbefore x (hfront ▸ List.mem_filterMap.mpr ⟨_, hmem, hfound⟩)
    · rw [hidle _ hmem] at hfound
      cases hfound

end Search

theorem finds_holding (ha : addr < addressSpace) :
    Finds regions (fun x => x.start ≤ addr ∧ addr < x.stop) (·.blockHolding? addr) := by
  intro r hr x
  constructor
  · intro h
    refine ⟨?_, Region.blockHolding?_some hr h⟩
    change r.blockHolding? addr = some x at h
    rw [Region.blockHolding?, if_pos ha] at h
    obtain ⟨i, _, rfl⟩ := Option.map_eq_some_iff.mp h
    rfl
  · rintro ⟨rfl, hw, hlo, hhi⟩
    exact hw.blockHolding? hlo hhi ha

theorem finds_from (cursor : Nat) :
    Finds regions (fun x => x.start = cursor) (·.blockFrom? cursor) := by
  intro r hr x
  constructor
  · intro h
    refine ⟨?_, Region.blockFrom?_some hr h⟩
    unfold Region.blockFrom? at h
    split at h
    · obtain ⟨i, _, rfl⟩ := Option.map_eq_some_iff.mp h
      rfl
    · cases h
  · rintro ⟨rfl, hw, rfl⟩
    exact hw.blockFrom?

/-- Some of the blocks that are found. -/
theorem Finds.filter {Fit : Block → Prop} {find : Region → Option Block}
    (h : Finds regions Fit find) (p : Block → Bool) :
    Finds regions (fun x => Fit x ∧ p x = true) fun r => (find r).filter p := by
  intro r hr x
  rw [Option.filter_eq_some_iff, h r hr x]
  tauto

theorem finds_middle (cursor stop : Nat) :
    Finds regions (fun x => x.start = cursor ∧ x.stop ≤ stop)
      fun r => (r.blockFrom? cursor).filter fun b => b.stop ≤ stop := by
  have h : Finds regions _ _ := (finds_from cursor).filter fun b => b.stop ≤ stop
  simpa only [decide_eq_true_eq] using h

theorem finds_enclosing (hs : start < stop) (ha : start < addressSpace) :
    Finds regions (fun x => x.start ≤ start ∧ stop ≤ x.stop)
      fun r => (r.blockHolding? start).filter (·.encloses start stop) := by
  intro r hr x
  rw [(finds_holding ha).filter (·.encloses start stop) r hr x]
  simp only [Block.encloses, Bool.and_eq_true, decide_eq_true_eq]
  constructor
  · rintro ⟨hreg, hw, _, henc⟩
    exact ⟨hreg, hw, henc⟩
  · rintro ⟨hreg, hw, hlo, hhi⟩
    exact ⟨hreg, hw, ⟨hlo, by omega⟩, hlo, hhi⟩

theorem selectHead_leads (h : selectHead regions start stop = some b) (ha : start < addressSpace) :
    Leads regions start stop b := by
  apply (finds_holding ha).foremost (ranked_waste start stop) ?_ h
  intro x y
  simp [WastesLess]

theorem middleCandidates_eq (regions : List Region) (cursor stop : Nat) :
    middleCandidates regions cursor stop =
      regions.filterMap fun r => (r.blockFrom? cursor).filter fun b => b.stop ≤ stop :=
  List.filter_filterMap

theorem selectMiddle_foremost (h : selectMiddle regions cursor stop = some b) :
    Foremost regions (fun x => x.start = cursor ∧ x.stop ≤ stop) Larger b := by
  rw [selectMiddle, middleCandidates_eq] at h
  apply (finds_middle cursor stop).foremost ranked_larger ?_ h
  intro x y
  simp [Larger]

theorem selectTail_closes (h : selectTail regions cursor = some b) : Closes regions cursor b := by
  apply (finds_from cursor).foremost ranked_smaller ?_ h
  intro x y
  simp [Smaller]

theorem enclosingCandidates_eq (regions : List Region) (start stop : Nat) :
    (headCandidates regions start).filter (·.encloses start stop) =
      regions.filterMap fun r => (r.blockHolding? start).filter (·.encloses start stop) :=
  List.filter_filterMap

theorem selectEnclosing_standsIn (h : selectEnclosing regions start stop = some b)
    (hs : start < stop) (ha : start < addressSpace) : StandsIn regions start stop b := by
  rw [selectEnclosing, enclosingCandidates_eq] at h
  apply (finds_enclosing hs ha).foremost ranked_smaller ?_ h
  intro x y
  simp [Smaller]

theorem selectEnclosing_none (h : selectEnclosing regions start stop = none)
    (hs : start < stop) (ha : start < addressSpace) (hw : b.Within regions) :
    ¬(b.start ≤ start ∧ stop ≤ b.stop) := by
  rw [selectEnclosing, enclosingCandidates_eq] at h
  exact (finds_enclosing hs ha).not_fit h hw

theorem selectMiddle_none (h : selectMiddle regions cursor stop = none) (hw : b.Within regions)
    (hb : b.start = cursor) : stop < b.stop := by
  rw [selectMiddle, middleCandidates_eq] at h
  have hlong := (finds_middle cursor stop).not_fit h hw
  omega

/-- The middle phase takes what follows, and its cursor ends where that ends. -/
theorem middleBlocks_follows (regions : List Region) (stop cursor : Nat) :
    Follows regions stop cursor (middleBlocks regions stop cursor)
      (cursorAfter cursor (middleBlocks regions stop cursor)) := by
  fun_induction middleBlocks regions stop cursor with
  | case1 cursor hlt b hb ih =>
    rw [cursorAfter_cons]
    exact .next hlt (selectMiddle_foremost hb) ih
  | case2 cursor hlt hn => exact .spent hlt fun x hx hstart => selectMiddle_none hn hx hstart
  | case3 cursor hge => exact .reached (Nat.le_of_not_lt hge)

/-- Where the blocks end short of the range, whatever starts there leads past it. -/
theorem Follows.past (h : Follows regions stop cursor bs last) (hlt : last < stop)
    (hw : b.Within regions) (hb : b.start = last) : stop < b.stop := by
  induction h with
  | reached hle => omega
  | spent _ long => exact long b hw hb
  | next _ _ _ ih => exact ih hlt hb

theorem coverageError_eq (ha : addr < addressSpace) : coverageError addr = .noCoverage addr := by
  rw [coverageError, Nat.mod_eq_of_lt ha]

/-- What the phases return, as the rule has it. -/
def answer : Except Nat (List Block) → Except Error (List Block)
  | .ok bs => .ok bs
  | .error addr => .error (.noCoverage addr)

theorem phases_phased (hs : start < stop) (ha : stop ≤ addressSpace) :
    ∃ outcome, Phased regions start stop outcome ∧
      phases regions start stop = answer outcome := by
  unfold phases
  cases hhead : selectHead regions start stop with
  | none =>
    refine ⟨.error start, .bare fun r hr hact hin => ?_, ?_⟩
    · obtain ⟨b, hb⟩ := exists_selectHead stop hr hact hin.1 hin.2 (by omega)
      rw [hhead] at hb
      cases hb
    · rw [coverageError_eq (by omega)]
      rfl
  | some head =>
    have hleads := selectHead_leads hhead (by omega)
    have hfollows := middleBlocks_follows regions stop head.stop
    simp only [cursorAfter_cons]
    generalize cursorAfter head.stop (middleBlocks regions stop head.stop) = last at hfollows ⊢
    split
    case isTrue hle => exact ⟨_, .reached hleads hfollows hle, rfl⟩
    case isFalse hshort =>
      cases htail : selectTail regions last with
      | none =>
        have hnone : ∀ x : Block, x.Within regions → x.start ≠ last :=
          fun x hx => start_ne_of_selectTail_none htail hx
        refine ⟨_, .stuck hleads hfollows (by omega) hnone, ?_⟩
        rw [coverageError_eq (by omega)]
        rfl
      | some tail =>
        have hcloses := selectTail_closes htail
        have hpast := hfollows.past (by omega) hcloses.within hcloses.fit
        exact ⟨_, .closed hleads hfollows (by omega) hcloses, if_neg (by omega)⟩

theorem coveringBlocks_ruled (hs : start < stop) (ha : stop ≤ addressSpace) :
    Ruled regions start stop ((coveringBlocks regions start stop).map Plan.mk) := by
  obtain ⟨outcome, hphased, hphases⟩ := phases_phased hs ha
  rw [coveringBlocks, hphases]
  cases outcome with
  | ok bs => exact .phased hphased
  | error addr =>
    cases henclosing : selectEnclosing regions start stop with
    | some b => exact .enclosed hphased (selectEnclosing_standsIn henclosing hs (by omega))
    | none =>
      exact .refused hphased fun x hx => selectEnclosing_none henclosing hs (by omega) hx

theorem make_eq (hlen : 0 < len) :
    make regions start len false = (coveringBlocks regions start (start + len)).map Plan.mk := by
  rw [make, if_neg (by simpa using Nat.ne_of_gt hlen)]
  cases coveringBlocks regions start (start + len) <;> rfl

theorem make_ruled (hlen : 0 < len) (ha : start + len ≤ addressSpace) :
    Ruled regions start (start + len) (make regions start len false) := by
  rw [make_eq hlen]
  exact coveringBlocks_ruled (by omega) ha

/-- An exact plan is the plan for the range, or is refused with that plan's boundaries. -/
theorem make_exact_eq (hlen : 0 < len) :
    make regions start len true =
      match make regions start len false with
      | .ok p =>
        if p.start = start ∧ p.stop = start + len then .ok p
        else .error (.notExact p.start (min p.stop (addressSpace - 1)))
      | .error e => .error e := by
  rw [make_eq hlen, make, if_neg (by simpa using Nat.ne_of_gt hlen)]
  cases coveringBlocks regions start (start + len) with
  | error e => rfl
  | ok bs => simp [requireExact, Except.map, bind, Except.bind]

/-- Planning keeps to the rule and the rule to planning. No last block ends inside the range or
with it, so none is ever sent back. -/
theorem make_keeps_rule (regions : List Region) (start len : Nat) (hlen : 0 < len)
    (ha : start + len ≤ addressSpace) :
    (∀ result, make regions start len false = result ↔
        Ruled regions start (start + len) result) ∧
      (∀ head bs last tail, Leads regions start (start + len) head →
        Follows regions (start + len) head.stop bs last → last < start + len →
        Closes regions last tail → start + len < tail.stop) ∧
      make regions start len true =
        match make regions start len false with
        | .ok p =>
          if p.start = start ∧ p.stop = start + len then .ok p
          else .error (.notExact p.start (min p.stop (addressSpace - 1)))
        | .error e => .error e := by
  have hruled : Ruled regions start (start + len) _ := make_ruled hlen ha
  refine ⟨fun result => ⟨?_, ?_⟩, ?_, make_exact_eq hlen⟩
  · rintro rfl
    exact hruled
  · intro h
    exact hruled.unique h (by omega) ha
  · intro head bs last tail _ hbs hlt htail
    exact hbs.past hlt htail.within htail.fit

/-- Blocks of 4 KiB that leave half of the range uncovered, and one of 64 KiB around all of it. -/
theorem make_keeps_rule_enclosing :
    Ruled [⟨0, 0x1000, 2, .erase20⟩, ⟨0, 0x10000, 2, .eraseD8⟩] 0x1000 0x6000
      (.ok ⟨[⟨⟨0, 0x10000, 2, .eraseD8⟩, 0⟩]⟩) :=
  ((make_keeps_rule [⟨0, 0x1000, 2, .erase20⟩, ⟨0, 0x10000, 2, .eraseD8⟩] 0x1000 0x5000
    (by decide) (by decide)).1 _).mp (by cbv)

end Plan
end NorFlash
