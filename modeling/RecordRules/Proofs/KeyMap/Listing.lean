import Mathlib.Data.List.Nodup
import Mathlib.Data.List.Perm.Subperm
import RecordRules.KeyMap

/-!
# Maps and lists of their entries

`m.Lists es` says that `es` names every entry of the map `m` once, in any order.  A map is
determined by such a list (`Lists.unique`), and each operation on maps has its counterpart on
lists.
-/

namespace RecordRules

/-- Where no key occurs twice, each entry is found under its key. -/
theorem Entries.get?_of_mem_of_nodup {β : Type} {k : String} {v : β} {es : List (String × β)}
    (hes : (es.map Prod.fst).Nodup) (h : (k, v) ∈ es) : Entries.get? k es = some v := by
  induction es with
  | nil => cases h
  | cons e rest ih =>
    obtain ⟨hnew, hrest⟩ := List.nodup_cons.1 hes
    rw [Entries.get?]
    rcases List.mem_cons.1 h with rfl | h
    · exact if_pos rfl
    · have hne : e.1 ≠ k := fun heq => hnew (heq ▸ List.mem_map_of_mem (f := Prod.fst) h)
      rw [if_neg hne, ih hrest h]

namespace KeyMap

variable {β : Type}

/-- The list has each entry of the map once. -/
structure Lists (m : KeyMap β) (es : List (String × β)) : Prop where
  nodup : (es.map (·.1)).Nodup
  get?_iff : ∀ k v, m.get? k = some v ↔ (k, v) ∈ es

namespace Lists

variable {m n : KeyMap β} {es fs : List (String × β)} {k : String} {v w : β}

/-- The order in which a map is listed does not matter. -/
theorem perm (h : m.Lists es) (hp : es.Perm fs) : m.Lists fs :=
  ⟨(hp.map _).nodup_iff.1 h.nodup, fun k v => (h.get?_iff k v).trans hp.mem_iff⟩

/-- A map is determined by its entries. -/
theorem unique (hm : m.Lists es) (hn : n.Lists es) : m = n := by
  ext1 k
  exact Option.ext fun v => (hm.get?_iff k v).trans (hn.get?_iff k v).symm

/-- The empty map is listed by nothing. -/
theorem empty : (KeyMap.empty : KeyMap β).Lists [] := ⟨.nil, by simp⟩

/-- A map contains the keys of any list of its entries. -/
theorem contains_iff (h : m.Lists es) (k : String) : m.contains k = true ↔ k ∈ es.map (·.1) := by
  rw [KeyMap.contains_iff, List.mem_map]
  constructor
  · rintro ⟨v, hv⟩
    exact ⟨(k, v), (h.get?_iff k v).1 hv, rfl⟩
  · rintro ⟨⟨l, v⟩, he, rfl⟩
    exact ⟨v, (h.get?_iff l v).2 he⟩

/-- A map has nothing at the keys that are not listed. -/
theorem get?_eq_none_iff (h : m.Lists es) (k : String) :
    m.get? k = none ↔ k ∉ es.map (·.1) := by
  rw [← h.contains_iff k, ← KeyMap.contains_eq_false_iff, Bool.not_eq_true]

/-- The keys of a map are those listed, in another order perhaps. -/
theorem keys_perm (h : m.Lists es) : m.keys.Perm (es.map (·.1)) := by
  apply (List.perm_ext_iff_of_nodup m.nodup_keys h.nodup).2
  intro k
  rw [mem_keys, h.contains_iff]

/-- A map has as many entries as are listed. -/
theorem size_eq (h : m.Lists es) : m.size = es.length := by
  simpa [keys, size] using h.keys_perm.length_eq

/-! ## Operations -/

/-- A listed key is not listed again further on. -/
theorem notMem_of_cons (h : m.Lists ((k, v) :: es)) : k ∉ es.map (·.1) :=
  (List.nodup_cons.1 h.nodup).1

/-- The first entry of a listing is found in the map. -/
theorem get?_head (h : m.Lists ((k, v) :: es)) : m.get? k = some v := (h.get?_iff k v).2 (.head _)

/-- Erasing the first key of a listing leaves the rest of the listing. -/
theorem erase (h : m.Lists ((k, v) :: es)) : (m.erase k).Lists es := by
  refine ⟨(List.nodup_cons.1 h.nodup).2, fun l w => ?_⟩
  rw [get?_erase]
  split
  · next hkl =>
    subst hkl
    simp only [reduceCtorEq, false_iff]
    exact fun hin => h.notMem_of_cons (List.mem_map_of_mem (f := (·.1)) hin)
  · next hkl =>
    rw [h.get?_iff, List.mem_cons, Prod.mk.injEq]
    simp [Ne.symm hkl]

/-- A key that is not listed yet is listed in front once it is inserted. -/
theorem insert_new (h : m.Lists es) (hk : k ∉ es.map (·.1)) (v : β) :
    (m.insert k v).Lists ((k, v) :: es) := by
  refine ⟨List.nodup_cons.2 ⟨hk, h.nodup⟩, fun l w => ?_⟩
  rw [get?_insert, List.mem_cons, Prod.mk.injEq, ← h.get?_iff l w]
  split
  · next hkl =>
    subst hkl
    simp [(h.get?_eq_none_iff k).2 hk, eq_comm]
  · next hkl => simp [Ne.symm hkl]

/-- Putting another value under a key that is there. -/
theorem insert (h : m.Lists ((k, v) :: es)) (w : β) : (m.insert k w).Lists ((k, w) :: es) := by
  have hnew := h.erase.insert_new h.notMem_of_cons w
  have heq : (m.erase k).insert k w = m.insert k w := by
    ext1 l
    simp only [get?_insert, get?_erase]
    split <;> rfl
  exact heq ▸ hnew

/-- A modification changes the listed value of its key and keeps the others. -/
theorem modify (h : m.Lists es) (k : String) (f : β → β) :
    (m.modify k f).Lists (es.map fun x => (x.1, if x.1 = k then f x.2 else x.2)) := by
  refine ⟨by simpa [Function.comp_def] using h.nodup, fun l w => ?_⟩
  rw [get?_modify, List.mem_map]
  constructor
  · split
    · next hkl =>
      subst hkl
      intro hw
      obtain ⟨v, hv, rfl⟩ := Option.map_eq_some_iff.1 hw
      exact ⟨(k, v), (h.get?_iff k v).1 hv, by simp⟩
    · next hkl =>
      intro hw
      exact ⟨(l, w), (h.get?_iff l w).1 hw, by simp [Ne.symm hkl]⟩
  · rintro ⟨⟨l', v⟩, hin, heq⟩
    obtain ⟨rfl, rfl⟩ := Prod.mk.inj heq
    have hv := (h.get?_iff l' v).2 hin
    by_cases hkl : k = l'
    · subst hkl
      simp [hv]
    · simp [hv, hkl, Ne.symm hkl]

/-- Maps without a common key are listed one after the other. -/
theorem union (hm : m.Lists es) (hn : n.Lists fs)
    (hdisjoint : ∀ k ∈ fs.map (·.1), k ∉ es.map (·.1)) : (m.union n).Lists (es ++ fs) := by
  constructor
  · rw [List.map_append, List.nodup_append]
    exact ⟨hm.nodup, hn.nodup, fun k hk l hl hkl => hdisjoint l hl (hkl ▸ hk)⟩
  · intro k v
    rw [get?_union, List.mem_append, ← hm.get?_iff, ← hn.get?_iff, Option.or_eq_some_iff]
    constructor
    · rintro (h | ⟨-, h⟩)
      · exact .inr h
      · exact .inl h
    · rintro (h | h)
      · refine .inr ⟨(hn.get?_eq_none_iff k).2 fun hk => hdisjoint k hk ?_, h⟩
        exact List.mem_map_of_mem (f := (·.1)) ((hm.get?_iff k v).1 h)
      · exact .inl h

end Lists

/-- Distinct keys that are all present are no more than there are entries. -/
theorem length_le_size {m : KeyMap β} {ks : List String} (hks : ks.Nodup)
    (h : ∀ k ∈ ks, m.contains k = true) : ks.length ≤ m.size := by
  have hsub : ks ⊆ m.keys := fun k hk => mem_keys.2 (h k hk)
  have hle := (hks.subperm hsub).length_le
  rwa [keys, List.length_map] at hle

/-- Erasing a key that is there makes a map smaller by one. -/
theorem size_erase_add_one {m : KeyMap β} {k : String} {v : β} (h : m.get? k = some v) :
    (m.erase k).size + 1 = m.size := by
  have hperm : m.keys.Perm (k :: (m.erase k).keys) := by
    refine (List.perm_ext_iff_of_nodup m.nodup_keys (List.nodup_cons.2 ⟨?_, nodup_keys _⟩)).2 ?_
    · simp [mem_keys, contains]
    · intro l
      by_cases hl : k = l
      · subst hl
        simp [mem_keys, contains, h]
      · simp [mem_keys, contains, hl, Ne.symm hl]
  simpa [keys, size] using hperm.length_eq.symm

/-- A modification does not change how many entries there are. -/
theorem size_modify (m : KeyMap β) (k : String) (f : β → β) : (m.modify k f).size = m.size := by
  cases h : m.get? k with
  | none => rw [modify, h]
  | some v =>
    have hins := size_erase_add_one (m := m.modify k f) (k := k) (v := f v) (by simp [h])
    have herase : (m.modify k f).erase k = m.erase k := by
      rw [modify_eq_insert h, erase_insert]
    rw [← hins, herase, size_erase_add_one h]

/-- The entries of a map are those that another one keeps and those that it lacks. -/
theorem size_add_length_filter {m n : KeyMap β}
    (h : ∀ k, n.contains k = true → m.contains k = true) :
    n.size + (m.keys.filter fun k => !n.contains k).length = m.size := by
  have hperm : n.keys.Perm (m.keys.filter n.contains) := by
    refine (List.perm_ext_iff_of_nodup n.nodup_keys (m.nodup_keys.filter _)).2 fun k => ?_
    rw [List.mem_filter, mem_keys, mem_keys]
    exact ⟨fun hk => ⟨h k hk, hk⟩, And.right⟩
  have hlength := List.length_eq_length_filter_add (l := m.keys) n.contains
  rw [← hperm.length_eq] at hlength
  simpa [keys, size] using hlength.symm

end KeyMap

end RecordRules
