/-!
# Finite maps with text keys

A `KeyMap` lists its entries in strictly ascending key order, so a map is determined by its
look-ups (`KeyMap.ext`).  The order on text is by code points, which is also the order of its
UTF-8 bytes.
-/

namespace RecordRules

variable {α : Type}

namespace Entries

/-- The value of the first entry with this key. -/
def get? (k : String) : List (String × α) → Option α
  | [] => none
  | (l, v) :: rest => if l = k then some v else get? k rest

/-- Put a value under a key of an ascending list, replacing an entry with the same key. -/
def insert (k : String) (v : α) : List (String × α) → List (String × α)
  | [] => [(k, v)]
  | (l, w) :: rest =>
    if k < l then (k, v) :: (l, w) :: rest
    else if k = l then (k, v) :: rest
    else (l, w) :: insert k v rest

/-- Drop the entries with this key. -/
def erase (k : String) (es : List (String × α)) : List (String × α) :=
  es.filter (fun e => e.1 ≠ k)

/-- Strictly ascending keys. -/
def Ascending (es : List (String × α)) : Prop :=
  es.Pairwise (fun e f => e.1 < f.1)

instance (es : List (String × α)) : Decidable (Ascending es) :=
  inferInstanceAs (Decidable (es.Pairwise _))

/-- What a list holds after an insertion is the new entry or was there before. -/
theorem mem_insert {k : String} {v : α} {e : String × α} {es : List (String × α)}
    (h : e ∈ insert k v es) : e = (k, v) ∨ e ∈ es := by
  induction es with
  | nil => simpa [insert] using h
  | cons f rest ih =>
    obtain ⟨l, w⟩ := f
    simp only [insert] at h
    split at h
    · simpa using h
    · split at h
      · rcases List.mem_cons.1 h with h | h
        · exact .inl h
        · exact .inr (.tail _ h)
      · rcases List.mem_cons.1 h with h | h
        · exact .inr (h ▸ .head _)
        · exact (ih h).imp_right (.tail _)

/-- Texts are compared totally: of two different keys one comes first. -/
theorem lt_of_not_lt_of_ne {a b : String} (h : ¬ a < b) (hne : a ≠ b) : b < a := by
  have hle : b ≤ a := String.not_lt.1 h
  exact Std.lt_of_le_of_ne hle (Ne.symm hne)

/-- An insertion puts its key where it belongs, before the first key that is greater. -/
theorem Ascending.insert {es : List (String × α)} (h : Ascending es) (k : String) (v : α) :
    Ascending (insert k v es) := by
  induction es with
  | nil => simp [Entries.insert, Ascending]
  | cons f rest ih =>
    obtain ⟨l, w⟩ := f
    have hrest := List.pairwise_cons.1 h
    simp only [Entries.insert]
    split
    · next hlt =>
      refine List.pairwise_cons.2 ⟨?_, h⟩
      intro e he
      rcases List.mem_cons.1 he with rfl | he
      · exact hlt
      · exact String.lt_trans hlt (hrest.1 e he)
    · next hlt =>
      split
      · next heq => exact List.pairwise_cons.2 ⟨heq ▸ hrest.1, hrest.2⟩
      · next hne =>
        refine List.pairwise_cons.2 ⟨?_, ih hrest.2⟩
        intro e he
        rcases mem_insert he with rfl | he
        · exact lt_of_not_lt_of_ne hlt hne
        · exact hrest.1 e he

/-- Erasing only leaves entries out, so the keys still ascend. -/
theorem Ascending.erase {es : List (String × α)} (h : Ascending es) (k : String) :
    Ascending (erase k es) :=
  List.Pairwise.filter _ h

end Entries

/-- A finite map from text to `α`. -/
structure KeyMap (α : Type) where
  entries : List (String × α)
  ascending : Entries.Ascending entries

namespace KeyMap

def empty : KeyMap α := ⟨[], .nil⟩

instance : EmptyCollection (KeyMap α) := ⟨empty⟩

instance : Inhabited (KeyMap α) := ⟨empty⟩

def get? (m : KeyMap α) (k : String) : Option α := Entries.get? k m.entries

def contains (m : KeyMap α) (k : String) : Bool := (m.get? k).isSome

def insert (m : KeyMap α) (k : String) (v : α) : KeyMap α :=
  ⟨Entries.insert k v m.entries, m.ascending.insert k v⟩

def erase (m : KeyMap α) (k : String) : KeyMap α :=
  ⟨Entries.erase k m.entries, m.ascending.erase k⟩

def size (m : KeyMap α) : Nat := m.entries.length

def isEmpty (m : KeyMap α) : Bool := m.entries.isEmpty

/-- The keys, ascending. -/
def keys (m : KeyMap α) : List String := m.entries.map (·.1)

/-- Later entries replace earlier ones with the same key. -/
def ofList (es : List (String × α)) : KeyMap α :=
  es.foldl (fun m e => m.insert e.1 e.2) empty

/-- Add all entries of `n`, which win over those of `m`. -/
def union (m n : KeyMap α) : KeyMap α :=
  n.entries.foldl (fun m e => m.insert e.1 e.2) m

/-- Change the value under a key, if there is one. -/
def modify (m : KeyMap α) (k : String) (f : α → α) : KeyMap α :=
  match m.get? k with
  | some v => m.insert k (f v)
  | none => m

end KeyMap

/-! ## Look-ups -/

namespace Entries

/-- A key below all keys of a list is not found in it, which is where a search may stop. -/
theorem get?_eq_none {k : String} {es : List (String × α)} (h : ∀ e ∈ es, k < e.1) :
    get? k es = none := by
  induction es with
  | nil => rfl
  | cons f rest ih =>
    have hf : ¬ f.1 = k := fun hk => String.lt_irrefl _ (hk ▸ h f (.head _))
    simp only [get?, hf, if_false]
    exact ih fun e he => h e (.tail _ he)

/-- An insertion changes what is found under its own key and under no other. -/
theorem get?_insert (k l : String) (v : α) (es : List (String × α)) :
    get? l (insert k v es) = if k = l then some v else get? l es := by
  induction es with
  | nil => simp [insert, get?]
  | cons f rest ih =>
    obtain ⟨m, w⟩ := f
    simp only [insert]
    split
    · simp [get?]
    · split
      · next heq => subst heq; by_cases hk : k = l <;> simp [get?, hk]
      · next hne =>
        by_cases hm : m = l
        · subst hm; simp [get?, hne]
        · simp [get?, hm, ih]

/-- Erasing a key hides its entry and no other. -/
theorem get?_erase (k l : String) (es : List (String × α)) :
    get? l (erase k es) = if k = l then none else get? l es := by
  induction es with
  | nil => simp [erase, get?]
  | cons f rest ih =>
    obtain ⟨m, w⟩ := f
    by_cases hm : m = k
    · subst hm
      by_cases hl : m = l
      · subst hl; simpa [erase, get?] using ih
      · simpa [erase, get?, hl] using ih
    · have : erase k ((m, w) :: rest) = (m, w) :: erase k rest := by simp [erase, hm]
      rw [this]
      by_cases hl : m = l
      · subst hl; simp [get?, Ne.symm hm]
      · simp [get?, hl, ih]

/-- What a search finds is an entry of the list. -/
theorem mem_of_get? {k : String} {v : α} {es : List (String × α)} (h : get? k es = some v) :
    (k, v) ∈ es := by
  induction es with
  | nil => simp [get?] at h
  | cons f rest ih =>
    obtain ⟨m, w⟩ := f
    simp only [get?] at h
    split at h
    · next hm => cases h; subst hm; exact .head _
    · exact .tail _ (ih h)

/-- With ascending keys the search misses no entry: a key is passed only when a greater one stands
in the list, and its entry would be further to the left. -/
theorem Ascending.get?_of_mem {k : String} {v : α} {es : List (String × α)} (hes : Ascending es)
    (h : (k, v) ∈ es) : get? k es = some v := by
  induction es with
  | nil => cases h
  | cons f rest ih =>
    obtain ⟨m, w⟩ := f
    have hrest := List.pairwise_cons.1 hes
    rcases List.mem_cons.1 h with h | h
    · cases h; simp [get?]
    · have hlt : m < k := hrest.1 _ h
      have hne : ¬ m = k := fun hk => String.lt_irrefl _ (hk ▸ hlt)
      simp [get?, hne, ih hrest.2 h]

/-- Entries inserted one after another hide what was there before under their keys. -/
theorem get?_foldl_insert {es : List (String × α)} (hes : Ascending es) (k : String)
    (fs : List (String × α)) :
    get? k (es.foldl (fun fs e => insert e.1 e.2 fs) fs) = (get? k es).or (get? k fs) := by
  induction es generalizing fs with
  | nil => rfl
  | cons e rest ih =>
    have he := List.pairwise_cons.1 hes
    rw [List.foldl_cons, ih he.2, get?_insert]
    by_cases hk : e.1 = k
    · have hnone : get? k rest = none := get?_eq_none (hk ▸ he.1)
      simp [get?, hk, hnone]
    · simp [get?, hk]

/-- Ascending entries are determined by what is found in them, whatever order they came in. -/
theorem Ascending.ext {es fs : List (String × α)} (hes : Ascending es) (hfs : Ascending fs)
    (h : ∀ k, get? k es = get? k fs) : es = fs := by
  induction es generalizing fs with
  | nil =>
    cases fs with
    | nil => rfl
    | cons f rest => have := h f.1; simp [get?] at this
  | cons e es ih =>
    obtain ⟨k, v⟩ := e
    have he := List.pairwise_cons.1 hes
    cases fs with
    | nil => have := h k; simp [get?] at this
    | cons f fs =>
      obtain ⟨l, w⟩ := f
      have hf := List.pairwise_cons.1 hfs
      -- if the first keys differed, the smaller one would be found in one list only
      have hkl : k = l := by
        by_cases hlt : k < l
        · have hnone : get? k ((l, w) :: fs) = none := get?_eq_none fun x hx => by
            rcases List.mem_cons.1 hx with rfl | hx
            · exact hlt
            · exact String.lt_trans hlt (hf.1 x hx)
          have := (h k).trans hnone
          simp [get?] at this
        · by_cases heq : k = l
          · exact heq
          · have hlt' := lt_of_not_lt_of_ne hlt heq
            have hnone : get? l ((k, v) :: es) = none := get?_eq_none fun x hx => by
              rcases List.mem_cons.1 hx with rfl | hx
              · exact hlt'
              · exact String.lt_trans hlt' (he.1 x hx)
            have := hnone.symm.trans (h l)
            simp [get?] at this
      subst hkl
      have hvw : v = w := by have := h k; simpa [get?] using this
      subst hvw
      congr 1
      apply ih he.2 hf.2
      -- the common first key is below the others, so it is not found behind
      intro m
      by_cases hm : k = m
      · subst hm
        rw [get?_eq_none he.1, get?_eq_none hf.1]
      · have := h m
        simpa [get?, hm] using this

end Entries

namespace KeyMap

variable (m : KeyMap α)

/-- Two maps that answer every key alike are one map. -/
@[ext] theorem ext {m n : KeyMap α} (h : ∀ k, m.get? k = n.get? k) : m = n := by
  obtain ⟨es, hes⟩ := m
  obtain ⟨fs, hfs⟩ := n
  have : es = fs := hes.ext hfs h
  subst this
  rfl

@[simp] theorem get?_empty (k : String) : (empty : KeyMap α).get? k = none := rfl

@[simp] theorem get?_insert (k l : String) (v : α) :
    (m.insert k v).get? l = if k = l then some v else m.get? l :=
  Entries.get?_insert k l v m.entries

@[simp] theorem get?_erase (k l : String) :
    (m.erase k).get? l = if k = l then none else m.get? l :=
  Entries.get?_erase k l m.entries

/-- A map finds exactly its entries. -/
theorem get?_eq_some_iff {m : KeyMap α} {k : String} {v : α} :
    m.get? k = some v ↔ (k, v) ∈ m.entries :=
  ⟨Entries.mem_of_get?, m.ascending.get?_of_mem⟩

/-- A map contains the keys it has a value for. -/
theorem contains_iff {m : KeyMap α} {k : String} :
    m.contains k = true ↔ ∃ v, m.get? k = some v :=
  Option.isSome_iff_exists

/-- A map does not contain the keys at which nothing is found. -/
theorem contains_eq_false_iff {m : KeyMap α} {k : String} :
    m.contains k = false ↔ m.get? k = none := by
  simp [contains]

/-- A modification reaches the value of its own key alone, and adds no key. -/
@[simp] theorem get?_modify (k l : String) (f : α → α) :
    (m.modify k f).get? l = if k = l then (m.get? l).map f else m.get? l := by
  unfold modify
  by_cases hkl : k = l
  · subst hkl
    cases h : m.get? k <;> simp [h]
  · cases h : m.get? k <;> simp [hkl]

/-- Modifying a value that is there is inserting the modified one. -/
theorem modify_eq_insert {m : KeyMap α} {k : String} {v : α} (h : m.get? k = some v)
    (f : α → α) : m.modify k f = m.insert k (f v) := by
  rw [modify, h]

/-- An entry that is erased again leaves no trace. -/
theorem erase_insert (k : String) (v : α) : (m.insert k v).erase k = m.erase k := by
  ext1 l
  simp only [get?_insert, get?_erase]
  split <;> rfl

/-- Modifications and erasures of different keys commute. -/
theorem modify_erase {k l : String} (h : k ≠ l) (f : α → α) :
    (m.erase l).modify k f = (m.modify k f).erase l := by
  ext1 x
  simp only [get?_modify, get?_erase]
  by_cases hk : k = x
  · subst hk
    simp [Ne.symm h]
  · simp [hk]

/-- Inserting into a map is inserting into its entries, also many times over. -/
theorem entries_foldl_insert (es : List (String × α)) (m : KeyMap α) :
    (es.foldl (fun m e => m.insert e.1 e.2) m).entries =
      es.foldl (fun fs e => Entries.insert e.1 e.2 fs) m.entries := by
  induction es generalizing m with
  | nil => rfl
  | cons e rest ih => exact ih _

/-- A union answers from its second map first. -/
@[simp] theorem get?_union (n : KeyMap α) (k : String) :
    (m.union n).get? k = (n.get? k).or (m.get? k) := by
  rw [get?, union, entries_foldl_insert]
  exact Entries.get?_foldl_insert n.ascending k m.entries

/-- An entry that is put where it stands already changes nothing. -/
theorem insert_eq_self {m : KeyMap α} {k : String} {v : α} (h : m.get? k = some v) :
    m.insert k v = m := by
  ext1 l
  rw [get?_insert]
  split
  · next hkl => rw [← hkl, h]
  · rfl

/-- The last value inserted under a key is the one that stays. -/
theorem insert_insert (k : String) (v w : α) : (m.insert k v).insert k w = m.insert k w := by
  ext1 l
  simp only [get?_insert]
  split <;> rfl

/-- The listed keys are those the map contains. -/
theorem mem_keys {m : KeyMap α} {k : String} : k ∈ m.keys ↔ m.contains k = true := by
  simp only [keys, List.mem_map, contains, Option.isSome_iff_exists]
  constructor
  · rintro ⟨⟨l, v⟩, he, rfl⟩
    exact ⟨v, get?_eq_some_iff.2 he⟩
  · rintro ⟨v, hv⟩
    exact ⟨(k, v), get?_eq_some_iff.1 hv, rfl⟩

/-- No key is listed twice, since the listed keys ascend. -/
theorem nodup_keys : m.keys.Nodup := by
  refine List.pairwise_map.2 (m.ascending.imp fun hlt heq => ?_)
  exact String.lt_irrefl _ (heq ▸ hlt)

/-- Erasing a key that is present makes the map smaller. -/
theorem size_erase_lt {m : KeyMap α} {k : String} {v : α} (h : m.get? k = some v) :
    (m.erase k).size < m.size := by
  have hmem := get?_eq_some_iff.1 h
  simp only [size, erase, Entries.erase]
  exact List.length_filter_lt_length_iff_exists.2 ⟨(k, v), hmem, by simp⟩

end KeyMap

end RecordRules
