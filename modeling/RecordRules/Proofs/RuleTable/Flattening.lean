import RecordRules.Proofs.KeyMap.Listing
import RecordRules.Proofs.Rule.Nodes

/-!
# Entering a tree into a table

The queue of `RuleTable.enter` holds trees whose nodes are still to be entered.  One step takes a
node from the queue and leaves the rest of its tree there, so the entries that are to come stay
the same up to order (`pendingEntries_perm`).  Hence entering succeeds exactly when the ids to come
are distinct and free, and the table then holds just these entries besides what it held
(`get?_enter`).

For a whole tree, `ofTreeUnder_eq_ok_iff` says which table it has.
-/

namespace RecordRules

namespace RuleTable

open Rule KeyMap

variable {α : Type} [Leaf α]

/-! ## The queue -/

/-- The ids of all nodes of the trees in a queue. -/
def pendingIds (queue : List (String × Rule α)) : List String := queue.flatMap fun q => q.2.ids

/-- The entries of all nodes of the trees in a queue. -/
def pendingEntries (queue : List (String × Rule α)) : List (String × Entry α) :=
  queue.flatMap fun q => q.2.entries q.1

/-- Taking a node from the queue takes its id from those to come, and no other. -/
theorem pendingIds_perm (parent : String) (r : Rule α) (rest : List (String × Rule α)) :
    (pendingIds ((parent, r) :: rest)).Perm (r.id :: pendingIds (rest ++ r.children)) := by
  have h : pendingIds r.children = r.conditions.flatMap ids := by
    simp [pendingIds, Rule.children, List.flatMap_map]
  rw [pendingIds, List.flatMap_cons, r.ids_eq, pendingIds, List.flatMap_append]
  exact (List.perm_append_comm.trans (.of_eq (by rw [← h, pendingIds]))).cons _

/-- Taking a node from the queue takes its entry from those to come, and no other. -/
theorem pendingEntries_perm (parent : String) (r : Rule α) (rest : List (String × Rule α)) :
    (pendingEntries ((parent, r) :: rest)).Perm
      ((r.id, r.entry parent) :: pendingEntries (rest ++ r.children)) := by
  have h : pendingEntries r.children = r.conditions.flatMap (entries r.id) := by
    simp [pendingEntries, Rule.children, List.flatMap_map]
  rw [pendingEntries, List.flatMap_cons, r.entries_eq, pendingEntries, List.flatMap_append]
  exact (List.perm_append_comm.trans (.of_eq (by rw [← h, pendingEntries]))).cons _

/-! ## Entering a queue -/

variable {t t' : RuleTable α} {queue : List (String × Rule α)}

/-- A queue whose ids are distinct and free can be entered. -/
theorem exists_enter_eq_ok (hnodup : (pendingIds queue).Nodup)
    (hfree : ∀ id ∈ pendingIds queue, t.get? id = none) : ∃ t', enter t queue = .ok t' := by
  fun_induction enter t queue with
  | case1 t => exact ⟨t, rfl⟩
  | case2 t parent r rest hin =>
    have hr := hfree r.id ((pendingIds_perm parent r rest).mem_iff.2 (.head _))
    rw [← KeyMap.contains_eq_false_iff, hin] at hr
    cases hr
  | case3 t parent r rest hin ih =>
    have hperm := pendingIds_perm parent r rest
    have hcons := List.nodup_cons.1 (hperm.nodup_iff.1 hnodup)
    apply ih hcons.2
    intro id hid
    have hne : r.id ≠ id := fun h => hcons.1 (h ▸ hid)
    rw [KeyMap.get?_insert, if_neg hne]
    exact hfree id (hperm.mem_iff.2 (.tail _ hid))

/-- What is entered successfully has distinct ids. -/
theorem nodup_of_enter (h : enter t queue = .ok t') :
    (pendingIds queue).Nodup ∧ ∀ id ∈ pendingIds queue, t.get? id = none := by
  fun_induction enter t queue with
  | case1 => simp [pendingIds]
  | case2 => cases h
  | case3 t parent r rest hin ih =>
    obtain ⟨hnodup, hfree⟩ := ih h
    have hperm := pendingIds_perm parent r rest
    constructor
    · refine hperm.nodup_iff.2 (List.nodup_cons.2 ⟨fun hr => ?_, hnodup⟩)
      simpa using hfree r.id hr
    · intro id hid
      rcases List.mem_cons.1 (hperm.mem_iff.1 hid) with rfl | hid
      · rwa [Bool.not_eq_true, KeyMap.contains_eq_false_iff] at hin
      · have hnone := hfree id hid
        rw [KeyMap.get?_insert] at hnone
        split at hnone
        · cases hnone
        · exact hnone

/-- The table after entering a queue: its own entries and those of the queue. -/
theorem get?_enter (h : enter t queue = .ok t') (k : String) (e : Entry α) :
    t'.get? k = some e ↔ t.get? k = some e ∨ (k, e) ∈ pendingEntries queue := by
  fun_induction enter t queue with
  | case1 =>
    cases h
    simp [pendingEntries]
  | case2 => cases h
  | case3 t parent r rest hin ih =>
    rw [Bool.not_eq_true, KeyMap.contains_eq_false_iff] at hin
    rw [ih h, (pendingEntries_perm parent r rest).mem_iff, List.mem_cons, KeyMap.get?_insert,
      Prod.mk.injEq, ← or_assoc]
    refine or_congr_left ?_
    by_cases hk : r.id = k
    · subst hk
      simp [hin, eq_comm]
    · simp [hk, Ne.symm hk]

/-- A queue that cannot be entered shows an id twice, or one that the table has already. -/
theorem enter_eq_error {err : TableError} (h : enter t queue = .error err) :
    ∃ id ∈ pendingIds queue, err = .duplicateId id ∧
      (t.contains id = true ∨ 2 ≤ (pendingIds queue).count id) := by
  fun_induction enter t queue with
  | case1 => cases h
  | case2 t parent r rest hin =>
    cases h
    exact ⟨r.id, (pendingIds_perm parent r rest).mem_iff.2 (.head _), rfl, .inl hin⟩
  | case3 t parent r rest hin ih =>
    obtain ⟨id, hid, rfl, htwice⟩ := ih h
    have hperm := pendingIds_perm parent r rest
    refine ⟨id, hperm.mem_iff.2 (.tail _ hid), rfl, ?_⟩
    rw [hperm.count_eq]
    -- the id that is reported may be the one just entered, which then comes again in the queue
    by_cases hr : r.id = id
    · subst hr
      have := List.one_le_count_iff.2 hid
      exact .inr (by rw [List.count_cons_self]; omega)
    · rw [List.count_cons_of_ne hr]
      simpa [KeyMap.contains, hr] using htwice

/-! ## Whole trees -/

/-- The table of a tree lists the entries of its nodes, and there is one exactly when the ids of
the nodes are distinct. -/
theorem ofTreeUnder_eq_ok_iff {r : Rule α} {parent : String} {t : RuleTable α} :
    ofTreeUnder r parent = .ok t ↔ t.Lists (r.entries parent) := by
  have hids : pendingIds [(parent, r)] = r.ids := by simp [pendingIds]
  have hentries : pendingEntries [(parent, r)] = r.entries parent := by simp [pendingEntries]
  have hlists : ∀ t', ofTreeUnder r parent = .ok t' → t'.Lists (r.entries parent) := by
    refine fun t' h => ⟨?_, fun k e => ?_⟩
    · rw [map_fst_entries, ← hids]
      exact (nodup_of_enter h).1
    · rw [get?_enter h k e, hentries]
      simp
  refine ⟨hlists t, fun ht => ?_⟩
  have hnodup : (pendingIds [(parent, r)]).Nodup := by
    rw [hids, ← map_fst_entries parent r]
    exact ht.nodup
  obtain ⟨t', ht'⟩ := exists_enter_eq_ok (t := .empty) hnodup (by simp)
  rw [ofTreeUnder, ht', (hlists t' ht').unique ht]

/-- A tree with distinct ids can be entered under any parent. -/
theorem exists_ofTreeUnder_eq_ok {r : Rule α} (hr : r.ids.Nodup) (parent : String) :
    ∃ t, ofTreeUnder r parent = .ok t :=
  exists_enter_eq_ok (by simpa [pendingIds] using hr) (by simp)

/-- A tree that cannot be entered repeats the id that is reported. -/
theorem ofTreeUnder_eq_error {r : Rule α} {parent : String} {err : TableError}
    (h : ofTreeUnder r parent = .error err) :
    ∃ id, err = .duplicateId id ∧ 2 ≤ r.ids.count id := by
  obtain ⟨id, -, rfl, htwice⟩ := enter_eq_error h
  exact ⟨id, rfl, by simpa [pendingIds, KeyMap.contains] using htwice⟩

/-- The table is that of the tree, whose root is its own parent. -/
def Represents (t : RuleTable α) (r : Rule α) : Prop := t.Lists (r.entries r.id)

/-- The table that is made of a tree is the one that represents it. -/
theorem ofTree_eq_ok_iff {r : Rule α} {t : RuleTable α} : ofTree r = .ok t ↔ t.Represents r :=
  ofTreeUnder_eq_ok_iff

namespace Represents

variable {r : Rule α} {t : RuleTable α}

/-- A tree that is represented has distinct ids. -/
theorem nodup (h : t.Represents r) : r.ids.Nodup := by
  rw [← map_fst_entries r.id r]
  exact h.1

/-- The table has one entry for each node. -/
theorem size_eq (h : t.Represents r) : t.size = r.ids.length := by
  rw [Lists.size_eq h, ← map_fst_entries r.id r, List.length_map]

/-- The table has the ids of the tree. -/
theorem contains_iff (h : t.Represents r) (id : String) : t.contains id = true ↔ id ∈ r.ids := by
  rw [Lists.contains_iff h, map_fst_entries]

/-- The table has nothing at other ids. -/
theorem get?_eq_none (h : t.Represents r) {id : String} (hid : id ∉ r.ids) : t.get? id = none := by
  rw [← h.contains_iff] at hid
  exact KeyMap.contains_eq_false_iff.1 (Bool.eq_false_iff.2 hid)

/-- The root is its own parent. -/
theorem get?_root (h : t.Represents r) : t.get? r.id = some (r.entry r.id) :=
  (h.get?_iff _ _).2 (mem_entries_iff.2 (.inl rfl))

/-- A condition has the id of its group as its parent. -/
theorem get?_condition (h : t.Represents r) {m n : Rule α} (hm : m ∈ r.nodes)
    (hn : n ∈ m.conditions) : t.get? n.id = some (n.entry m.id) :=
  (h.get?_iff _ _).2 (mem_entries_iff.2 (.inr ⟨m, hm, n, hn, rfl⟩))

/-- Every node is found under its id, with some parent. -/
theorem get?_node (h : t.Represents r) {n : Rule α} (hn : n ∈ r.nodes) :
    ∃ above, t.get? n.id = some (n.entry above) := by
  obtain ⟨d, hn⟩ := mem_nodes_iff.1 hn
  obtain ⟨above, hsub⟩ := hn.entries_subset r.id
  refine ⟨above, (h.get?_iff _ _).2 (hsub ?_)⟩
  rw [entries_eq]
  exact .head _

/-- What stands under an id in the table is a node of the tree. -/
theorem exists_node (h : t.Represents r) {id : String} {e : Entry α} (he : t.get? id = some e) :
    ∃ n ∈ r.nodes, n.id = id ∧ ∃ above, e = n.entry above := by
  rcases mem_entries_iff.1 ((h.get?_iff id e).1 he) with heq | ⟨m, hm, n, hn, heq⟩
  · obtain ⟨rfl, rfl⟩ := Prod.mk.inj heq
    exact ⟨r, self_mem_nodes r, rfl, r.id, rfl⟩
  · obtain ⟨rfl, rfl⟩ := Prod.mk.inj heq
    refine ⟨n, ?_, rfl, m.id, rfl⟩
    obtain ⟨d, hm⟩ := mem_nodes_iff.1 hm
    exact mem_nodes_iff.2 ⟨d + 1, hm.condition hn⟩

end Represents

/-- A tree has a table exactly if its ids are distinct. -/
theorem exists_ofTree_eq_ok_iff {r : Rule α} : (∃ t, ofTree r = .ok t) ↔ r.ids.Nodup := by
  constructor
  · rintro ⟨t, ht⟩
    exact (ofTree_eq_ok_iff.1 ht).nodup
  · intro hr
    exact exists_ofTreeUnder_eq_ok hr r.id

end RuleTable

end RecordRules
