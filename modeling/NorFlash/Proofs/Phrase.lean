import Mathlib.Data.List.TakeWhile
import NorFlash.Session.Parameters

namespace NorFlash.Parameters

/-- Text that no separator cuts. -/
def Unbroken (s : String) : Prop := ∀ c ∈ s.toList, isSeparator c = false

instance (s : String) : Decidable (Unbroken s) :=
  List.decidableBAll (fun c => isSeparator c = false) s.toList

/-- A run of separators, which may be empty. -/
structure Gap where
  run : List Char
  separates : ∀ c ∈ run, isSeparator c = true

/-- A token behind the name. -/
inductive Item where
  /-- A value for a key. The value may hold equals signs. -/
  | pair (key value : String) (hkey : Unbroken key) (hplain : '=' ∉ key.toList)
      (hvalue : Unbroken value)
  /-- Anything without an equals sign. -/
  | junk (text : String) (htext : Unbroken text) (hplain : '=' ∉ text.toList)

namespace Item

def text : Item → List Char
  | pair key value _ _ _ => key.toList ++ '=' :: value.toList
  | junk text _ _ => text.toList

def pair? : Item → Option (String × String)
  | pair key value _ _ _ => some (key, value)
  | junk _ _ _ => none

end Item

/-- A parameter string in its parts. -/
structure Phrase where
  lead : Gap
  name : String
  /-- Each token with the separators before it. -/
  items : List (Gap × Item)
  trail : Gap
  name_ne : name ≠ ""
  name_unbroken : Unbroken name
  apart : ∀ i ∈ items, i.1.run ≠ []

namespace Phrase

/-- What stands behind the name. -/
def tail (items : List (Gap × Item)) (trail : Gap) : List Char :=
  items.flatMap (fun i => i.1.run ++ i.2.text) ++ trail.run

def text (p : Phrase) : String :=
  String.ofList (p.lead.run ++ (p.name.toList ++ tail p.items p.trail))

/-- The keys with their values, in their order. -/
def pairs (p : Phrase) : List (String × String) := p.items.filterMap fun i => i.2.pair?

/-- The first value of the key that is not empty. -/
def first? (p : Phrase) (key : String) : Option String :=
  (p.pairs.find? fun (k, v) => k == key && v != "").map Prod.snd

end Phrase

variable {isMark : Char → Bool} {c : Char} {cs word : List Char}

theorem pieces_mark (h : isMark c = true) : pieces isMark (c :: cs) = [] :: pieces isMark cs := by
  rw [pieces, if_pos h]

theorem pieces_ne_nil (isMark : Char → Bool) (cs : List Char) : pieces isMark cs ≠ [] := by
  cases cs with
  | nil => simp [pieces]
  | cons c cs =>
    rw [pieces]
    split
    · simp
    · split <;> simp

/-- What holds no mark goes to the front of the piece behind it. -/
theorem pieces_word (h : ∀ c ∈ word, isMark c = false) (cs : List Char) :
    ∃ p ps, pieces isMark cs = p :: ps ∧ pieces isMark (word ++ cs) = (word ++ p) :: ps := by
  induction word with
  | nil =>
    obtain ⟨p, ps, hp⟩ := List.exists_cons_of_ne_nil (pieces_ne_nil isMark cs)
    exact ⟨p, ps, hp, hp⟩
  | cons c word ih =>
    obtain ⟨p, ps, hp, hword⟩ := ih fun d hd => h d (List.mem_cons_of_mem c hd)
    refine ⟨p, ps, hp, ?_⟩
    rw [List.cons_append, pieces, h c List.mem_cons_self, hword]
    rfl

theorem tokens_separator (h : isSeparator c = true) : tokens (c :: cs) = tokens cs := by
  simp [tokens, pieces_mark h]

theorem tokens_gap (g : Gap) (cs : List Char) : tokens (g.run ++ cs) = tokens cs := by
  obtain ⟨run, hrun⟩ := g
  induction run with
  | nil => rfl
  | cons c run ih =>
    have hc := hrun c List.mem_cons_self
    rw [List.cons_append, tokens_separator hc]
    exact ih fun d hd => hrun d (List.mem_cons_of_mem c hd)

/-- A word that ends at a separator, or with the string, is a token unless it is empty. -/
theorem tokens_word (h : ∀ c ∈ word, isSeparator c = false)
    (hend : ∀ c ∈ cs.head?, isSeparator c = true) :
    tokens (word ++ cs) = [word].filter (fun t => !t.isEmpty) ++ tokens cs := by
  obtain ⟨p, ps, hp, hword⟩ := pieces_word h cs
  have hempty : p = [] := by
    cases cs with
    | nil => exact (List.cons.inj hp).1.symm
    | cons c cs =>
      rw [pieces_mark (hend c rfl)] at hp
      exact (List.cons.inj hp).1.symm
  subst hempty
  have hdrop : tokens cs = ps.filter fun t => !t.isEmpty := by
    rw [tokens, hp]
    rfl
  rw [hdrop, tokens, hword, List.append_nil]
  exact List.filter_append [word] ps

theorem keyValue?_of_not_mem (h : '=' ∉ cs) : keyValue? cs = none := by
  have hall : ∀ c ∈ cs, (c != '=') = true := fun c hc => by
    have hne : c ≠ '=' := fun he => h (he ▸ hc)
    simpa using hne
  rw [keyValue?, List.dropWhile_eq_nil_iff.mpr hall]

theorem keyValue?_pair {key : List Char} (h : '=' ∉ key) (value : List Char) :
    keyValue? (key ++ '=' :: value) = some (key, value) := by
  have hall : ∀ c ∈ key, (c != '=') = true := fun c hc => by
    have hne : c ≠ '=' := fun he => h (he ▸ hc)
    simpa using hne
  rw [keyValue?, List.dropWhile_append_of_pos hall, List.takeWhile_append_of_pos hall]
  simp

namespace Item

theorem unbroken (i : Item) : ∀ c ∈ i.text, isSeparator c = false := by
  cases i with
  | junk text htext _ => exact htext
  | pair key value hkey _ hvalue =>
    intro c hc
    rcases List.mem_append.mp hc with hc | hc
    · exact hkey c hc
    · rcases List.mem_cons.mp hc with rfl | hc
      · decide
      · exact hvalue c hc

theorem keyValue?_text (i : Item) :
    keyValue? i.text = i.pair?.map fun (k, v) => (k.toList, v.toList) := by
  cases i with
  | pair key value _ hplain _ => exact keyValue?_pair hplain value.toList
  | junk text _ hplain => exact keyValue?_of_not_mem hplain

end Item

namespace Phrase

variable {items : List (Gap × Item)}

/-- Behind the name or a token there is a separator or nothing. -/
theorem head?_tail (hgap : ∀ i ∈ items, i.1.run ≠ []) (trail : Gap) :
    ∀ c ∈ (tail items trail).head?, isSeparator c = true := by
  intro c hc
  cases items with
  | nil => exact trail.separates c (List.mem_of_mem_head? hc)
  | cons i items =>
    obtain ⟨d, run, hrun⟩ := List.exists_cons_of_ne_nil (hgap i List.mem_cons_self)
    simp only [tail, List.flatMap_cons, hrun, List.cons_append, List.head?_cons,
      Option.mem_some_iff] at hc
    subst hc
    exact i.1.separates d (by rw [hrun]; exact List.mem_cons_self)

theorem tokens_tail (hgap : ∀ i ∈ items, i.1.run ≠ []) (trail : Gap) :
    tokens (tail items trail) = (items.map fun i => i.2.text).filter fun t => !t.isEmpty := by
  induction items with
  | nil =>
    have h := tokens_gap trail []
    rw [List.append_nil] at h
    exact h
  | cons i items ih =>
    have hlater : ∀ j ∈ items, j.1.run ≠ [] := fun j hj => hgap j (List.mem_cons_of_mem i hj)
    have hcut : tail (i :: items) trail = i.1.run ++ (i.2.text ++ tail items trail) := by
      simp [tail]
    rw [hcut, tokens_gap, tokens_word i.2.unbroken (head?_tail hlater trail), ih hlater,
      ← List.filter_append, List.map_cons, List.singleton_append]

theorem tokens_text (p : Phrase) : tokens p.text.toList =
    p.name.toList :: (p.items.map fun i => i.2.text).filter fun t => !t.isEmpty := by
  have hname : p.name.toList ≠ [] := by simpa using p.name_ne
  rw [text, String.toList_ofList, tokens_gap,
    tokens_word p.name_unbroken (head?_tail p.apart p.trail), tokens_tail p.apart]
  simp [hname]

theorem keyValues_text (p : Phrase) : ((tokens p.text.toList).drop 1).filterMap keyValue? =
    p.pairs.map fun (k, v) => (k.toList, v.toList) := by
  -- an empty token gives no value, so it does not matter that there are none
  have hempty : ∀ t : List Char,
      (if (!t.isEmpty) = true then keyValue? t else none) = keyValue? t := by
    intro t
    cases t with
    | nil => rfl
    | cons c t => rfl
  rw [tokens_text, List.drop_one, List.tail_cons, List.filterMap_filter]
  simp only [hempty]
  rw [List.filterMap_map, pairs, List.map_filterMap]
  exact congrArg (p.items.filterMap ·) (funext fun i => i.2.keyValue?_text)

theorem findSome?_pairs (pairs : List (String × String)) (key : String) :
    ((pairs.map fun (k, v) => (k.toList, v.toList)).findSome? fun (k, v) =>
      if k == key.toList && !v.isEmpty then some (String.ofList v) else none) =
    (pairs.find? fun (k, v) => k == key && v != "").map Prod.snd := by
  induction pairs with
  | nil => rfl
  | cons kv pairs ih =>
    obtain ⟨k, v⟩ := kv
    have htest : (k.toList == key.toList && !v.toList.isEmpty) = (k == key && v != "") := by
      rw [Bool.eq_iff_iff]
      simp [String.toList_inj]
    rw [List.map_cons, List.findSome?_cons, List.find?_cons]
    dsimp only
    rw [htest, ih]
    cases k == key && v != "" <;> simp

theorem programmerName_text (p : Phrase) : programmerName p.text = p.name := by
  rw [programmerName, p.tokens_text, List.headD_cons, String.ofList_toList]

theorem value?_text (p : Phrase) (key : String) : value? p.text key = p.first? key := by
  rw [value?, p.keyValues_text, findSome?_pairs, first?]

/-- Reading a parameter string gives back what it was written from: its name, and for each key the
first of its values that is not empty. -/
theorem reads_back (p : Phrase) :
    programmerName p.text = p.name ∧ ∀ key, value? p.text key = p.first? key :=
  ⟨p.programmerName_text, p.value?_text⟩

/-- An empty value is passed over, and a value goes up to the next separator. -/
example : value? ":dummy:,image=,junk:image=a=b.bin,image=c" "image" = some "a=b.bin" := by
  decide +kernel

end Phrase
end NorFlash.Parameters
