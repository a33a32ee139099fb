import NorFlash.Bytes

namespace NorFlash.Bytes

variable {a b d : Bytes} {i lo hi n start : Nat} {v : UInt8}

theorem byteAt_of_lt (h : i < b.size) : byteAt b i = b[i] := dif_pos h

theorem byteAt_of_le (h : b.size ≤ i) : byteAt b i = 0 := dif_neg (Nat.not_lt.mpr h)

theorem ext_byteAt (hs : a.size = b.size) (h : ∀ i < a.size, byteAt a i = byteAt b i) : a = b := by
  apply ByteArray.ext_getElem hs
  intro i ha hb
  rw [← byteAt_of_lt ha, ← byteAt_of_lt hb]
  exact h i ha

theorem size_pushFilled (n : Nat) : (pushFilled v n b).size = b.size + n := by
  induction n generalizing b with
  | zero => rfl
  | succ n ih => rw [pushFilled, ih, ByteArray.size_push]; omega

theorem byteAt_eq_getD : byteAt b i = b.data[i]?.getD 0 := by
  by_cases h : i < b.size
  · rw [byteAt_of_lt h, ByteArray.getElem_eq_getElem_data,
      Array.getElem?_eq_getElem (by simpa using h), Option.getD_some]
  · rw [byteAt_of_le (by omega), Array.getElem?_eq_none (by simpa using h), Option.getD_none]

theorem byteAt_push : byteAt (b.push v) i = if i = b.size then v else byteAt b i := by
  rw [byteAt_eq_getD, byteAt_eq_getD, ByteArray.data_push, Array.getElem?_push, ByteArray.size_data]
  split <;> rfl

theorem byteAt_pushFilled (n : Nat) :
    byteAt (pushFilled v n b) i = if b.size ≤ i ∧ i < b.size + n then v else byteAt b i := by
  induction n generalizing b with
  | zero => rw [pushFilled, if_neg (by omega)]
  | succ n ih =>
    rw [pushFilled, ih, ByteArray.size_push, byteAt_push]
    by_cases hi : i = b.size
    · rw [if_neg (by omega), if_pos hi, if_pos (by omega)]
    · rw [if_neg hi]
      congr 1
      simp only [eq_iff_iff]
      omega

@[simp] theorem size_filled (n : Nat) (v : UInt8) : (filled n v).size = n := by
  rw [filled, size_pushFilled]
  exact Nat.zero_add n

theorem size_ofList (bs : List UInt8) : (ofList bs).size = bs.length := by
  have hfold : ∀ acc : Bytes, (bs.foldl ByteArray.push acc).size = acc.size + bs.length := by
    induction bs with
    | nil => exact fun acc => rfl
    | cons b bs ih =>
      intro acc
      rw [List.foldl_cons, ih, ByteArray.size_push, List.length_cons]
      omega
  rw [ofList, hfold, ByteArray.size_empty, Nat.zero_add]

theorem byteAt_ofList (bs : List UInt8) : byteAt (ofList bs) i = bs[i]?.getD 0 := by
  have hfold : ∀ acc : Bytes,
      (bs.foldl ByteArray.push acc).data.toList = acc.data.toList ++ bs := by
    induction bs with
    | nil => simp
    | cons b bs ih =>
      intro acc
      rw [List.foldl_cons, ih]
      simp
  have hlist : (ofList bs).data.toList = bs := hfold ByteArray.empty
  rw [byteAt_eq_getD, ← Array.getElem?_toList, hlist]

theorem byteAt_filled (h : i < n) : byteAt (filled n v) i = v := by
  have he : (ByteArray.emptyWithCapacity n).size = 0 := rfl
  rw [filled, byteAt_pushFilled, he, if_pos (by omega)]

theorem size_extract_of_le (hh : hi ≤ b.size) : (b.extract lo hi).size = hi - lo := by
  rw [ByteArray.size_extract, Nat.min_eq_left hh]

theorem size_extract_add (h : start + n ≤ b.size) : (b.extract start (start + n)).size = n := by
  rw [size_extract_of_le h, Nat.add_sub_cancel_left]

theorem byteAt_extract (hh : hi ≤ b.size) (h : lo + i < hi) :
    byteAt (b.extract lo hi) i = byteAt b (lo + i) := by
  rw [byteAt_of_lt (by rw [size_extract_of_le hh]; omega), byteAt_of_lt (by omega),
    ByteArray.getElem_extract]

theorem size_of_slice?_add {n : Nat} (h : slice? b start (start + n) = some d) : d.size = n := by
  unfold slice? at h
  split at h
  case isTrue hin =>
    cases h
    exact size_extract_add hin.2
  case isFalse => cases h

theorem slice?_of_le (hl : lo ≤ hi) (hh : hi ≤ b.size) : slice? b lo hi = some (b.extract lo hi) :=
  if_pos ⟨hl, hh⟩

theorem byteAt_append :
    byteAt (a ++ b) i = if i < a.size then byteAt a i else byteAt b (i - a.size) := by
  simp only [byteAt_eq_getD, ByteArray.data_append, Array.getElem?_append, ByteArray.size_data]
  split <;> rfl

theorem overlay_eq_append :
    overlay b start d = b.extract 0 start ++ d ++ b.extract (start + d.size) b.size := by
  rw [overlay, ByteArray.copySlice_eq_append]
  simp

theorem size_overlay (h : start + d.size ≤ b.size) : (overlay b start d).size = b.size := by
  rw [overlay_eq_append]
  simp only [ByteArray.size_append, ByteArray.size_extract]
  omega

theorem byteAt_overlay (h : start + d.size ≤ b.size) :
    byteAt (overlay b start d) i =
      if start ≤ i ∧ i < start + d.size then byteAt d (i - start) else byteAt b i := by
  have hfront : (b.extract 0 start).size = start := size_extract_of_le (by omega)
  rw [overlay_eq_append, byteAt_append, byteAt_append, ByteArray.size_append, hfront]
  by_cases hlt : i < start
  · rw [if_pos (by omega), if_pos hlt, if_neg (by omega), byteAt_extract (by omega) (by omega),
      Nat.zero_add]
  · by_cases hin : i < start + d.size
    · rw [if_pos hin, if_neg hlt, if_pos (by omega)]
    · rw [if_neg hin, if_neg (by omega)]
      by_cases hi : i < b.size
      · rw [byteAt_extract (Nat.le_refl _) (by omega)]
        congr 1
        omega
      · have hrest : (b.extract (start + d.size) b.size).size = b.size - (start + d.size) :=
          size_extract_of_le (Nat.le_refl _)
        rw [byteAt_of_le (b := b) (by omega), byteAt_of_le (by omega)]

theorem overlay?_of_le (h : start + d.size ≤ b.size) :
    overlay? b start d = some (overlay b start d) :=
  if_pos h

theorem size_fill (h : start + n ≤ b.size) : (fill b start n v).size = b.size :=
  size_overlay (by rwa [size_filled])

theorem byteAt_fill (h : start + n ≤ b.size) :
    byteAt (fill b start n v) i = if start ≤ i ∧ i < start + n then v else byteAt b i := by
  rw [fill, byteAt_overlay (by rwa [size_filled]), size_filled]
  split
  case isTrue hi => exact byteAt_filled (by omega)
  case isFalse => rfl

theorem size_overlayFront (b d : Bytes) : (overlayFront b d).size = b.size := by
  unfold overlayFront
  split
  case isTrue h => exact h
  case isFalse =>
    rw [ByteArray.size_append, take, drop, ByteArray.size_extract, ByteArray.size_extract]
    omega

theorem overlayFront_of_size_eq (h : d.size = b.size) : overlayFront b d = d := if_pos h

/-- What is no longer than the buffer is laid over its beginning. -/
theorem overlayFront_of_le_size (h : d.size ≤ b.size) : overlayFront b d = overlay b 0 d := by
  have htake : take d b.size = d := by
    apply ByteArray.ext
    simp [take, h]
  rw [overlay_eq_append, ByteArray.extract_same, ByteArray.empty_append, Nat.zero_add]
  unfold overlayFront
  split
  case isTrue heq =>
    have hrest : b.extract d.size b.size = ByteArray.empty := by rw [heq, ByteArray.extract_same]
    rw [hrest, ByteArray.append_empty]
  case isFalse => rw [htake, drop]

@[simp] theorem size_modifyAt (f : UInt8 → UInt8) : (modifyAt b i f).size = b.size := by
  unfold modifyAt
  split
  · simp only [← ByteArray.size_data, ByteArray.data_set, Array.size_set]
  · rfl

theorem byteAt_modifyAt (f : UInt8 → UInt8) {j : Nat} (h : i < b.size) :
    byteAt (modifyAt b i f) j = if j = i then f (byteAt b i) else byteAt b j := by
  rw [byteAt_of_lt h, modifyAt, dif_pos h]
  simp only [byteAt_eq_getD, ByteArray.data_set, Array.getElem?_set]
  by_cases hj : i = j
  · rw [if_pos hj, if_pos hj.symm, Option.getD_some]
  · rw [if_neg hj, if_neg (fun he => hj he.symm)]

theorem differenceFrom_none (n : Nat) (h : differenceFrom a b n lo = none) (hl : lo ≤ i)
    (hh : i < lo + n) : byteAt a i = byteAt b i := by
  induction n generalizing lo with
  | zero => omega
  | succ n ih =>
    unfold differenceFrom at h
    split at h
    case isFalse => simp at h
    case isTrue he =>
      by_cases hi : i = lo
      · rw [hi]
        exact eq_of_beq he
      · exact ih h (by omega) (by omega)

theorem differenceFrom_lt (h : differenceFrom a b n lo = some i) : i < lo + n := by
  induction n generalizing lo with
  | zero => cases h
  | succ n ih =>
    unfold differenceFrom at h
    split at h
    case isTrue =>
      have hlt := ih h
      omega
    case isFalse =>
      cases h
      omega

/-- What is found is a difference, and there is none before it. -/
theorem differenceFrom_some (h : differenceFrom a b n lo = some i) :
    byteAt a i ≠ byteAt b i ∧ ∀ j, lo ≤ j → j < i → byteAt a j = byteAt b j := by
  induction n generalizing lo with
  | zero => cases h
  | succ n ih =>
    unfold differenceFrom at h
    split at h
    case isTrue he =>
      obtain ⟨hne, hbefore⟩ := ih h
      refine ⟨hne, fun j hlo hj => ?_⟩
      by_cases hl : j = lo
      · rw [hl]
        exact eq_of_beq he
      · exact hbefore j (by omega) hj
    case isFalse hne =>
      cases h
      exact ⟨by simpa using hne, fun j hlo hj => absurd hlo (by omega)⟩

/-- A difference is found in a place that both have. -/
theorem firstDifference?_lt (h : firstDifference? a b = some i) : i < a.size ∧ i < b.size := by
  have hlt := differenceFrom_lt h
  omega

/-- Buffers of one size without a difference are the same. -/
theorem eq_of_firstDifference?_none (hs : a.size = b.size) (h : firstDifference? a b = none) :
    a = b := by
  apply ext_byteAt hs
  intro i hi
  exact differenceFrom_none _ h (Nat.zero_le i) (by omega)

/-- Buffers that compare as the same are the same. -/
theorem eq_of_same (h : same a b = true) : a = b := by
  simp only [same, Bool.and_eq_true, beq_iff_eq, Option.isNone_iff_eq_none] at h
  exact eq_of_firstDifference?_none h.1 h.2

theorem differenceFrom_self (n i : Nat) : differenceFrom a a n i = none := by
  induction n generalizing i with
  | zero => rfl
  | succ n ih =>
    rw [differenceFrom, if_pos (beq_self_eq_true _)]
    exact ih (i + 1)

@[simp] theorem same_self : same a a = true := by
  simp [same, firstDifference?, differenceFrom_self]

/-- Laying the same content over a buffer once more changes nothing. -/
theorem overlay_overlay (h : start + d.size ≤ b.size) :
    overlay (overlay b start d) start d = overlay b start d := by
  have hsize : start + d.size ≤ (overlay b start d).size := by rwa [size_overlay h]
  refine ext_byteAt (size_overlay hsize) fun i _ => ?_
  rw [byteAt_overlay hsize, byteAt_overlay h]
  split <;> rfl

end NorFlash.Bytes
