import NorFlash.Database.Basic
import NorFlash.Emulator.Basic
import NorFlash.Proofs.Covering

namespace NorFlash

/-- What is asked of a region on a chip of `total` bytes. Not much is asked of an inactive one. -/
structure Region.Accepted (total : Nat) (r : Region) : Prop where
  small : r.blockSize < VendorFile.wordBound
  inside : r.active = true → r.stop ≤ total
  whole : r.active = true → r.function.erasesChip = true →
    r.start = 0 ∧ r.blockCount = 1 ∧ r.blockSize = total

/-- What is asked of a chip. -/
structure Chip.Accepted (c : Chip) : Prop where
  size_pos : 0 < c.size
  size_lt : c.size < addressSpace
  page_pos : 0 < c.pageSize
  few : c.regions.length ≤ Chip.maxRegions
  regions : ∀ r ∈ c.regions, r.Accepted c.size

/-- Regions that an erase instruction alone can tell apart: each active region starts at a multiple
of its block size, and an instruction for blocks has one block size. -/
structure Chip.Regular (c : Chip) : Prop where
  aligned : ∀ r ∈ c.regions, r.active = true → r.blockSize ∣ r.start
  uniform : ∀ r ∈ c.regions, ∀ r' ∈ c.regions, r.active = true → r'.active = true →
    r.function = r'.function → r.function.erasesChip = false → r.blockSize = r'.blockSize

/-- The bytes that a size names. -/
def Size.amount : Size → Nat
  | bytes n => n
  | kib n => n * 1024
  | mib n => n * (1024 * 1024)

theorem Size.toBytes?_eq_some_iff {s : Size} {n : Nat} :
    s.toBytes? = some n ↔ n = s.amount ∧ n < addressSpace := by
  unfold Size.toBytes?
  rw [Option.ite_none_right_eq_some]
  constructor
  · intro ⟨hlt, he⟩
    cases he
    exact ⟨by cases s <;> rfl, hlt⟩
  · intro ⟨he, hlt⟩
    subst he
    cases s <;> exact ⟨hlt, rfl⟩

theorem EraseFunction.ofOpcode?_eq_some_iff {b : UInt8} {f : EraseFunction} :
    ofOpcode? b = some f ↔ f.opcode = b := by
  constructor
  · intro h
    simpa using List.find?_some h
  · intro h
    rw [← h, ofOpcode?_opcode]

namespace VendorFile

/-- The region that a definition says, on a chip of any size. -/
structure RegionDefinition.Describes (d : RegionDefinition) (r : Region) : Prop where
  start : r.start = d.start
  size : r.blockSize = d.size.amount
  count : r.blockCount = d.count
  opcode : r.function.opcode = d.opcode

/-- The chip that a definition says, in a file of this vendor. -/
structure ChipDefinition.Describes (vendor : String) (manufacturer : Nat) (d : ChipDefinition)
    (c : Chip) : Prop where
  id : c.id = d.id
  vendor : c.vendor = vendor
  name : c.name = d.name
  manufacturer : c.manufacturer = manufacturer
  model : c.model = d.deviceId
  size : c.size = d.totalSize.amount
  pageSize : c.pageSize = d.pageSize
  features : c.features = d.features
  voltageMin : c.voltageMin = d.voltageMin
  voltageMax : c.voltageMax = d.voltageMax
  probe : c.probe = d.probe
  regions : List.Forall₂ RegionDefinition.Describes d.regions c.regions

/-- The chips that a text defines, in its order. -/
def Defines (parse : Parser) (text : String) (cs : List Chip) : Prop :=
  ∃ v, parse text = some v ∧
    List.Forall₂ (ChipDefinition.Describes v.vendor v.manufacturerId) v.chips cs ∧
    ∀ c ∈ cs, c.Accepted

variable {parse : Parser} {text : String} {cs : List Chip}

theorem Defines.accepted (h : Defines parse text cs) : ∀ c ∈ cs, c.Accepted := by
  obtain ⟨_, _, _, ha⟩ := h
  exact ha

theorem regionReason?_eq_none_iff {d : RegionDefinition} {r : Region} {total : Nat} :
    regionReason? d r total = none ↔ (r.active = true → r.stop ≤ total ∧
      (r.function.erasesChip = true →
        r.start = 0 ∧ r.blockCount = 1 ∧ r.blockSize = total)) := by
  unfold regionReason?
  cases r.active with
  | false => simp
  | true =>
    simp only [Bool.not_true, Bool.false_eq_true, ↓reduceIte, forall_const]
    by_cases hstop : total < r.stop
    · simp [hstop, Nat.not_le.mpr hstop]
    · rw [if_neg hstop]
      cases r.function.erasesChip with
      | false => simp [Nat.le_of_not_lt hstop]
      | true => simp [Nat.le_of_not_lt hstop, and_assoc]

theorem toRegion_eq_ok_iff {d : RegionDefinition} {r : Region} {total : Nat} :
    d.toRegion total = .ok r ↔ d.Describes r ∧ r.Accepted total := by
  unfold RegionDefinition.toRegion
  constructor
  · intro h
    split at h
    case h_1 => simp at h
    case h_2 f hf =>
      split at h
      case h_1 => simp at h
      case h_2 size hs =>
        dsimp only at h
        split at h
        case h_1 => simp at h
        case h_2 hr =>
          cases h
          obtain ⟨hsize, hlt⟩ := Size.toBytes?_eq_some_iff.mp hs
          have hreason := regionReason?_eq_none_iff.mp hr
          exact ⟨⟨rfl, hsize, rfl, EraseFunction.ofOpcode?_eq_some_iff.mp hf⟩,
            hlt, fun ha => (hreason ha).1, fun ha => (hreason ha).2⟩
  · intro ⟨hd, ha⟩
    have hr : (⟨d.start, r.blockSize, d.count, r.function⟩ : Region) = r := by
      rw [← hd.start, ← hd.count]
    have hreason : regionReason? d r total = none :=
      regionReason?_eq_none_iff.mpr fun hact => ⟨ha.inside hact, ha.whole hact⟩
    simp only [EraseFunction.ofOpcode?_eq_some_iff.mpr hd.opcode,
      Size.toBytes?_eq_some_iff.mpr ⟨hd.size, ha.small⟩, hr, hreason]

/-- A relation between two lists, and something that each of the second list is. -/
theorem forall₂_and_all {α β : Type} {R : α → β → Prop} {p : β → Prop} {xs : List α}
    {ys : List β} :
    List.Forall₂ (fun x y => R x y ∧ p y) xs ys ↔ List.Forall₂ R xs ys ∧ ∀ y ∈ ys, p y := by
  induction xs generalizing ys with
  | nil => cases ys <;> simp
  | cons x xs ih =>
    cases ys with
    | nil => simp
    | cons y ys =>
      simp only [List.forall₂_cons, ih, List.forall_mem_cons]
      exact and_and_and_comm

/-- A list that is converted whole is converted one by one. -/
theorem mapM_eq_ok_iff {α β ε : Type} {f : α → Except ε β} {xs : List α} {ys : List β} :
    xs.mapM f = .ok ys ↔ List.Forall₂ (fun x y => f x = .ok y) xs ys := by
  induction xs generalizing ys with
  | nil => cases ys <;> simp [pure, Except.pure]
  | cons x xs ih =>
    rw [List.mapM_cons]
    cases hx : f x with
    | error e => cases ys <;> simp [hx, bind, Except.bind]
    | ok y =>
      cases hxs : xs.mapM f with
      | error e => cases ys <;> simp [hx, hxs, bind, Except.bind, ← ih]
      | ok zs => cases ys <;> simp [hx, hxs, bind, Except.bind, pure, Except.pure, ← ih]

theorem toRegions_eq_ok_iff {d : ChipDefinition} {rs : List Region} {total : Nat} :
    d.toRegions total = .ok rs ↔ 0 < d.pageSize ∧ rs.length ≤ Chip.maxRegions ∧
      List.Forall₂ RegionDefinition.Describes d.regions rs ∧ ∀ r ∈ rs, r.Accepted total := by
  have hmap : (d.regions.mapM fun r => r.toRegion total) = .ok rs ↔
      List.Forall₂ RegionDefinition.Describes d.regions rs ∧ ∀ r ∈ rs, r.Accepted total := by
    simp only [mapM_eq_ok_iff, toRegion_eq_ok_iff]
    exact forall₂_and_all
  unfold ChipDefinition.toRegions
  by_cases hpage : d.pageSize = 0
  · simp [hpage]
  · rw [if_neg (by simpa using hpage)]
    constructor
    · intro h
      split at h
      case isTrue => simp at h
      case isFalse hfew =>
        have hrs := hmap.mp h
        have hlen := hrs.1.length_eq
        exact ⟨Nat.pos_of_ne_zero hpage, by omega, hrs⟩
    · intro ⟨_, hfew, hrs⟩
      have hlen := hrs.1.length_eq
      rw [if_neg (by omega), hmap]
      exact hrs

theorem toChip_eq_ok_iff {vendor : String} {manufacturer : Nat} {d : ChipDefinition} {c : Chip} :
    d.toChip vendor manufacturer = .ok c ↔ d.Describes vendor manufacturer c ∧ c.Accepted := by
  unfold ChipDefinition.toChip ChipDefinition.total?
  constructor
  · intro h
    split at h
    case h_1 => simp at h
    case h_2 size hs =>
      split at h
      case h_1 => simp at h
      case h_2 regions hr =>
        cases h
        obtain ⟨hbytes, hpos⟩ := Option.filter_eq_some_iff.mp hs
        obtain ⟨hsize, hlt⟩ := Size.toBytes?_eq_some_iff.mp hbytes
        obtain ⟨hpage, hfew, hregions, hacc⟩ := toRegions_eq_ok_iff.mp hr
        exact ⟨⟨rfl, rfl, rfl, rfl, rfl, hsize, rfl, rfl, rfl, rfl, rfl, hregions⟩,
          Nat.pos_of_ne_zero (by simpa using hpos), hlt, hpage, hfew, hacc⟩
  · intro ⟨hd, ha⟩
    have hsize : d.totalSize.toBytes?.filter (· != 0) = some c.size := by
      rw [Size.toBytes?_eq_some_iff.mpr ⟨hd.size, ha.size_lt⟩, Option.filter_some,
        if_pos (by simpa using Nat.ne_of_gt ha.size_pos)]
    have hregions : d.toRegions c.size = .ok c.regions := by
      rw [toRegions_eq_ok_iff, ← hd.pageSize]
      exact ⟨ha.page_pos, ha.few, hd.regions, ha.regions⟩
    simp only [hsize, hregions, ← hd.id, ← hd.name, ← hd.vendor, ← hd.manufacturer, ← hd.model,
      ← hd.pageSize, ← hd.features, ← hd.voltageMin, ← hd.voltageMax, ← hd.probe]

theorem toChips_eq_ok_iff {v : VendorDefinition} :
    v.toChips = .ok cs ↔
      List.Forall₂ (ChipDefinition.Describes v.vendor v.manufacturerId) v.chips cs ∧
      ∀ c ∈ cs, c.Accepted := by
  unfold VendorDefinition.toChips
  simp only [mapM_eq_ok_iff, toChip_eq_ok_iff]
  exact forall₂_and_all

/-- A text loads where it reads as a file of chips that can be accepted. -/
theorem chips_eq_ok_iff : chips parse text = .ok cs ↔ Defines parse text cs := by
  unfold chips Defines
  cases parse text with
  | none => simp
  | some v => simp [toChips_eq_ok_iff]

/-- Every chip of a vendor file that loads is one that is accepted. -/
theorem chips_accepted (h : chips parse text = .ok cs) : ∀ c ∈ cs, c.Accepted :=
  (chips_eq_ok_iff.mp h).accepted

end VendorFile

namespace Chip

/-- A definition of the chip, with its sizes in bytes. -/
def definition (c : Chip) : VendorFile.ChipDefinition where
  id := c.id
  name := c.name
  deviceId := c.model
  totalSize := .bytes c.size
  pageSize := c.pageSize
  probe := c.probe
  features := c.features
  voltageMin := c.voltageMin
  voltageMax := c.voltageMax
  regions := c.regions.map fun r => ⟨r.start, .bytes r.blockSize, r.blockCount, r.function.opcode⟩

/-- A vendor file that defines nothing but the chip. -/
def vendorDefinition (c : Chip) : VendorFile.VendorDefinition :=
  ⟨c.vendor, c.manufacturer, [c.definition]⟩

theorem definition_describes (c : Chip) : c.definition.Describes c.vendor c.manufacturer c := by
  refine ⟨rfl, rfl, rfl, rfl, rfl, rfl, rfl, rfl, rfl, rfl, rfl, ?_⟩
  rw [definition, List.forall₂_map_left_iff, List.forall₂_same]
  exact fun r _ => ⟨rfl, rfl, rfl, rfl⟩

/-- The chips that some vendor file brings are the accepted ones. -/
theorem toChips_vendorDefinition {c : Chip} :
    c.vendorDefinition.toChips = .ok [c] ↔ c.Accepted := by
  rw [VendorFile.toChips_eq_ok_iff, List.forall_mem_singleton]
  exact and_iff_right (.cons c.definition_describes .nil)

end Chip

/-- A block that its erase command erases exactly. -/
structure Block.Fits (c : Chip) (b : Block) : Prop where
  pos : 0 < b.size
  inside : b.stop ≤ c.size
  aligned : b.start % b.size = 0
  known : Emulator.eraseSize? c b.function = some b.size
  whole : b.function.erasesChip = true → b.start = 0 ∧ b.size = c.size

variable {c : Chip} {b : Block}

theorem Block.Within.inside (hw : b.Within c.regions) (hc : c.Accepted) : b.stop ≤ c.size :=
  Nat.le_trans hw.stop_le ((hc.regions b.region hw.region).inside hw.active)

/-- The only block of an active region for the whole chip is the whole chip. -/
theorem Block.Within.whole (hw : b.Within c.regions) (hc : c.Accepted)
    (hf : b.function.erasesChip = true) : b.start = 0 ∧ b.size = c.size := by
  obtain ⟨hstart, hcount, hsize⟩ := (hc.regions b.region hw.region).whole hw.active hf
  have hindex : b.index = 0 := by
    have := hw.index
    omega
  refine ⟨?_, hsize⟩
  rw [hw.start_eq, hstart, hindex, Nat.zero_mul]

/-- An instruction for blocks has the size that its first active region gives it. -/
theorem Block.Within.exists_first (hw : b.Within c.regions) (hf : b.function.erasesChip = false) :
    ∃ r ∈ c.regions, r.active = true ∧ r.function = b.function ∧
      Emulator.eraseSize? c b.function = some r.blockSize := by
  cases hfind : c.activeRegions.find? fun r => r.function == b.function with
  | none =>
    have hmem : b.region ∈ c.activeRegions := List.mem_filter.mpr ⟨hw.region, hw.active⟩
    have hno := List.find?_eq_none.mp hfind b.region hmem
    simp [Block.function] at hno
  | some r =>
    have hfun : r.function = b.function := by simpa using List.find?_some hfind
    obtain ⟨hin, hact⟩ := List.mem_filter.mp (List.mem_of_find?_eq_some hfind)
    refine ⟨r, hin, hact, hfun, ?_⟩
    simp [Emulator.eraseSize?, hf, hfind]

/-- The first active region with the instruction need not be the block's own, but its blocks have
the same size. -/
theorem Block.Within.eraseSize? (hw : b.Within c.regions) (hc : c.Accepted) (hr : c.Regular) :
    Emulator.eraseSize? c b.function = some b.size := by
  cases hf : b.function.erasesChip with
  | true => rw [Emulator.eraseSize?, if_pos hf, (hw.whole hc hf).2]
  | false =>
    obtain ⟨r, hin, hact, hfun, hsize⟩ := hw.exists_first hf
    rw [hsize, hr.uniform r hin b.region hw.region hact hw.active hfun (by rw [hfun, hf]),
      Block.size]

theorem Block.Within.aligned (hw : b.Within c.regions) (hr : c.Regular) : b.start % b.size = 0 := by
  obtain ⟨k, hk⟩ := hr.aligned b.region hw.region hw.active
  rw [hw.start_eq, hk, Nat.mul_comm b.index, ← Nat.mul_add]
  exact Nat.mul_mod_right _ _

theorem Block.Within.fits_chip (hw : b.Within c.regions) (hc : c.Accepted) (hr : c.Regular) :
    b.Fits c :=
  ⟨hw.size_pos, hw.inside hc, hw.aligned hr,
    hw.eraseSize? hc hr, hw.whole hc⟩

namespace Plan.Covers

variable {plan : Plan} {start stop : Nat}

theorem stop_le_size (h : plan.Covers c.regions start stop) (hc : c.Accepted) :
    plan.stop ≤ c.size := by
  obtain ⟨z, hz, hstop⟩ := h.stop_eq
  rw [hstop]
  exact (h.within z (List.mem_of_getLast? hz)).inside hc

/-- What is erased lies in the chip. -/
theorem inside (h : plan.Covers c.regions start stop) (hc : c.Accepted) :
    plan.start + plan.erasedBytes ≤ c.size := by
  have hlt := h.start_lt_stop
  have hstop := h.stop_le_size hc
  unfold erasedBytes
  omega

end Plan.Covers
end NorFlash
