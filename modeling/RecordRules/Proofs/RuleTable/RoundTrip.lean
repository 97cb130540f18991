import RecordRules.Proofs.RuleTable.Flattening

/-!
# Rebuilding a tree from its table

The table of a tree gives back the tree below every node, and how deep the node stands.

`build` threads the ids that it has met from one condition to the next.  In the table of a tree
with distinct ids it meets none of them twice, and what it has met after a subtree are the ids of
the subtree (`build_eq`); `climb` goes up one step of `Rule.At` at a time (`climb_eq`).
-/

namespace RecordRules.RuleTable

open Rule

variable {α : Type} {t : RuleTable α}

/-! ## Nodes that are their own parents -/

/-- The roots are the nodes that are their own parents. -/
theorem mem_roots_iff {k : String} :
    k ∈ t.roots ↔ ∃ e, t.get? k = some e ∧ e.parent = k := by
  simp only [roots, List.mem_map, List.mem_filter, decide_eq_true_eq]
  constructor
  · rintro ⟨⟨l, e⟩, ⟨he, hp⟩, rfl⟩
    exact ⟨e, KeyMap.get?_eq_some_iff.2 he, hp⟩
  · rintro ⟨e, he, hp⟩
    exact ⟨(k, e), ⟨KeyMap.get?_eq_some_iff.1 he, hp⟩, rfl⟩

/-- No root is listed twice. -/
theorem nodup_roots (t : RuleTable α) : t.roots.Nodup :=
  t.nodup_keys.sublist (List.filter_sublist.map _)

variable [Leaf α] {r n : Rule α} {d : Nat}

/-! ## Building -/

/-- Conditions with distinct ids are built one after the other, provided each of them is built
alone. -/
theorem buildList_eq {build : List String → String → Except TableError (Rule α × List String)}
    {rs : List (Rule α)} {met : List String} (hrs : (rs.flatMap ids).Nodup)
    (hmet : ∀ id ∈ rs.flatMap ids, id ∉ met)
    (hbuild : ∀ c ∈ rs, ∀ met, (∀ id ∈ c.ids, id ∉ met) →
      build met c.id = .ok (c, c.ids.reverse ++ met)) :
    buildList build met (rs.map Rule.id) = .ok (rs, (rs.flatMap ids).reverse ++ met) := by
  induction rs generalizing met with
  | nil => rfl
  | cons c rest ih =>
    rw [List.flatMap_cons] at hrs hmet
    obtain ⟨-, hrest, hdisjoint⟩ := List.nodup_append.1 hrs
    have hc : build met c.id = .ok (c, c.ids.reverse ++ met) :=
      hbuild c (.head _) met fun id hid => hmet id (List.mem_append_left _ hid)
    have hmet' : ∀ id ∈ rest.flatMap ids, id ∉ c.ids.reverse ++ met := by
      intro id hid hin
      rcases List.mem_append.1 hin with hin | hin
      · exact hdisjoint id (List.mem_reverse.1 hin) id hid rfl
      · exact hmet id (List.mem_append_right _ hid) hin
    have hrest := ih hrest hmet' fun c hc => hbuild c (.tail _ hc)
    simp [buildList, hc, hrest, bind, Except.bind, pure, Except.pure]

/-- Building below a node whose entries are in the table, and whose ids have not been met. -/
theorem build_eq (parent : String) (fuel : Nat) (met : List String) (hr : r.ids.Nodup)
    (ht : ∀ k e, (k, e) ∈ r.entries parent → t.get? k = some e)
    (hmet : ∀ id ∈ r.ids, id ∉ met) (hfuel : r.ids.length ≤ fuel) :
    t.build fuel met r.id = .ok (r, r.ids.reverse ++ met) := by
  induction r generalizing parent fuel met with
  | leaf a =>
    have hget : t.get? (Leaf.id a) = some (.filter a parent) := ht _ _ (by simp [entries, entry])
    obtain _ | fuel := fuel
    · simp at hfuel
    · have hid : Leaf.id a ∉ met := hmet _ (by simp)
      simp [build, hget, hid]
  | group id op invert conditions ih =>
    have hget := ht id _ (by rw [entries_eq]; exact .head _)
    obtain _ | fuel := fuel
    · simp at hfuel
    have hid : id ∉ met := hmet id (id_mem_ids _)
    -- after the id of the group, its conditions meet only ids of their own
    have hlist : buildList (t.build fuel) (id :: met) (conditions.map Rule.id) =
        .ok (conditions, (conditions.flatMap ids).reverse ++ id :: met) := by
      rw [ids_group] at hr hmet
      refine buildList_eq (List.nodup_cons.1 hr).2 ?_ ?_
      · intro k hk hin
        rcases List.mem_cons.1 hin with rfl | hin
        · exact (List.nodup_cons.1 hr).1 hk
        · exact hmet k (.tail _ hk) hin
      · intro c hc met hmet
        have hlt := length_ids_lt_of_mem_conditions (r := .group id op invert conditions) hc
        refine ih c hc id fuel met ((List.nodup_flatMap.1 (List.nodup_cons.1 hr).2).1 c hc)
          (fun k e hk => ht k e ?_) hmet (by omega)
        rw [entries_eq]
        exact .tail _ (List.mem_flatMap.2 ⟨c, hc, hk⟩)
    simp [build, hget, hid, entry, hlist, bind, Except.bind, pure, Except.pure]

/-- The tree below a node of the table is the node. -/
theorem treeAt_eq (ht : t.Represents r) (h : At n d r) : t.treeAt n.id = .ok n := by
  obtain ⟨above, hsub⟩ := h.entries_subset r.id
  have hn : ∀ k e, (k, e) ∈ n.entries above → t.get? k = some e :=
    fun k e hk => (ht.get?_iff k e).2 (hsub hk)
  have hget : t.get? n.id = some (n.entry above) := hn _ _ (by rw [entries_eq]; exact .head _)
  have hle := h.add_length_le
  have hfuel : n.ids.length ≤ t.size + 1 := by rw [ht.size_eq]; omega
  have hbuild := build_eq above (t.size + 1) [] (h.nodup ht.nodup) hn (by simp) hfuel
  simp [treeAt, node, hget, hbuild, bind, Except.bind, pure, Except.pure]

/-! ## Climbing -/

/-- Climbing from a node counts the steps to the root, if so many are allowed. -/
theorem climb_eq (ht : t.Represents r) (start : String) (h : At n d r) (steps : Nat)
    (hd : d ≤ steps) :
    ∃ above, t.get? n.id = some (n.entry above) ∧
      t.climb start steps n.id (n.entry above) = .ok d := by
  induction d generalizing n steps with
  | zero =>
    cases h
    refine ⟨r.id, ht.get?_root, ?_⟩
    unfold climb
    simp
  | succ d ih =>
    obtain ⟨m, hm, hn⟩ := h.exists_parent
    obtain _ | steps := steps
    · omega
    obtain ⟨above, hget, hclimb⟩ := ih hm steps (by omega)
    -- with distinct ids a condition is never its own parent
    have hne : m.id ≠ n.id := fun heq =>
      id_notMem_ids_of_mem_conditions (hm.nodup ht.nodup) hn (heq ▸ n.id_mem_ids)
    refine ⟨m.id, ht.get?_condition (mem_nodes_iff.2 ⟨d, hm⟩) hn, ?_⟩
    unfold climb
    simp [hne, hget, hclimb, Except.map]

/-- The depth of a node is how far it stands below the root. -/
theorem depth_eq (ht : t.Represents r) (h : At n d r) : t.depth n.id = .ok d := by
  have hle := h.add_length_le
  have hsteps : d ≤ t.size := by rw [ht.size_eq]; omega
  obtain ⟨above, hget, hclimb⟩ := climb_eq ht n.id h t.size hsteps
  simp [depth, node, hget, hclimb, bind, Except.bind]

/-! ## The root -/

/-- The root of a tree is the only node of its table that is its own parent. -/
theorem roots_eq (ht : t.Represents r) : t.roots = [r.id] := by
  refine List.perm_singleton.1 ((List.perm_ext_iff_of_nodup t.nodup_roots (by simp)).2 ?_)
  intro k
  rw [mem_roots_iff, List.mem_singleton]
  constructor
  · rintro ⟨e, he, hp⟩
    rcases mem_entries_iff.1 ((ht.get?_iff k e).1 he) with heq | ⟨m, hm, n, hn, heq⟩
    · exact congrArg Prod.fst heq
    · obtain ⟨rfl, rfl⟩ := Prod.mk.inj heq
      obtain ⟨d, hm⟩ := mem_nodes_iff.1 hm
      refine absurd ?_ (id_notMem_ids_of_mem_conditions (hm.nodup ht.nodup) hn)
      rw [parent_entry] at hp
      exact hp ▸ n.id_mem_ids
  · rintro rfl
    exact ⟨r.entry r.id, ht.get?_root, parent_entry _ _⟩

/-- The table gives the tree back, unless the tree is a single filter. -/
theorem toTree_eq (ht : t.Represents r) :
    t.toTree = if r.isGroup then .ok r else .error (.rootNotGroup r.id) := by
  have hroot : t.root = .ok r.id := by rw [root, roots_eq ht]
  have hget := ht.get?_root
  have htree := treeAt_eq ht .root
  cases r with
  | leaf a => simp_all [toTree, bind, Except.bind, entry, isGroup]
  | group id op invert conditions => simp_all [toTree, bind, Except.bind, entry, isGroup]

/-! ## The round trip -/

/-- A tree has a table exactly when its ids are distinct; otherwise an id that occurs twice is
told.  The table has one entry for each node, gives back the tree below each node and its depth,
and gives back the whole tree if that is a group. -/
theorem ofTree_round_trip (r : Rule α) :
    ((∃ t, ofTree r = .ok t) ↔ r.ids.Nodup) ∧
    (¬ r.ids.Nodup → ∃ id, ofTree r = .error (.duplicateId id) ∧ 2 ≤ r.ids.count id) ∧
    ∀ t, ofTree r = .ok t →
      t.keys.Perm r.ids ∧
      (∀ n d, At n d r → t.treeAt n.id = .ok n ∧ t.depth n.id = .ok d) ∧
      t.toTree = if r.isGroup then .ok r else .error (.rootNotGroup r.id) := by
  refine ⟨⟨?_, fun hr => exists_ofTreeUnder_eq_ok hr r.id⟩, fun hr => ?_, fun t h => ?_⟩
  · rintro ⟨t, h⟩
    exact (ofTree_eq_ok_iff.1 h).nodup
  · cases h : ofTree r with
    | ok t => exact absurd (ofTree_eq_ok_iff.1 h).nodup hr
    | error err =>
      obtain ⟨id, rfl, htwice⟩ := ofTreeUnder_eq_error h
      exact ⟨id, rfl, htwice⟩
  · have ht := ofTree_eq_ok_iff.1 h
    refine ⟨?_, fun n d hn => ⟨treeAt_eq ht hn, depth_eq ht hn⟩, toTree_eq ht⟩
    simpa using KeyMap.Lists.keys_perm ht

end RecordRules.RuleTable
