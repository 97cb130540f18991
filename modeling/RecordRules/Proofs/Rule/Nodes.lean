import Mathlib.Data.List.Nodup
import Mathlib.Data.List.Pairwise
import RecordRules.RuleTable.Tree

/-!
# The nodes of a rule

The nodes of a tree are listed with each group before its conditions, either as trees of their
own (`Rule.nodes`) or as the entries that a table has for them (`Rule.entries`).  `Rule.At` says
how deep a node stands.

Where the ids of a tree are distinct, an id stands for one node and one depth (`At.unique`), and
the conditions of a group share no ids (`eq_of_mem_ids`).
-/

namespace RecordRules.Rule

variable {α : Type}

/-- Induction over rules where single filters and groups need not be told apart. -/
theorem induct_conditions {motive : Rule α → Prop}
    (step : ∀ r, (∀ c ∈ r.conditions, motive c) → motive r) (r : Rule α) : motive r := by
  induction r with
  | leaf a => exact step _ (by simp)
  | group id op invert conditions ih => exact step _ ih

/-! ## Nodes -/

mutual

/-- All nodes, each with the tree below it. -/
def nodes : Rule α → List (Rule α)
  | leaf a => [leaf a]
  | group id op invert conditions => group id op invert conditions :: nodesOf conditions

def nodesOf : List (Rule α) → List (Rule α)
  | [] => []
  | r :: rest => nodes r ++ nodesOf rest

end

/-- The nodes of several trees are those of each, one tree after the other. -/
theorem nodesOf_eq (rs : List (Rule α)) : nodesOf rs = rs.flatMap nodes := by
  induction rs with
  | nil => rfl
  | cons r rest ih => simp [nodesOf, ih]

/-- The nodes of a tree are the tree and those of its conditions, in pre-order. -/
theorem nodes_eq (r : Rule α) : r.nodes = r :: r.conditions.flatMap nodes := by
  cases r <;> simp [nodes, nodesOf_eq]

/-- `n` is a node of the tree, this many steps below its root. -/
inductive At (n : Rule α) : Nat → Rule α → Prop where
  | root : At n 0 n
  | under {d : Nat} {c r : Rule α} : c ∈ r.conditions → At n d c → At n (d + 1) r

/-- A tree lists the nodes that stand somewhere in it. -/
theorem mem_nodes_iff {n r : Rule α} : n ∈ r.nodes ↔ ∃ d, At n d r := by
  constructor
  · intro h
    induction r using induct_conditions with
    | step r ih =>
      rw [nodes_eq, List.mem_cons, List.mem_flatMap] at h
      rcases h with rfl | ⟨c, hc, h⟩
      · exact ⟨0, .root⟩
      · obtain ⟨d, hd⟩ := ih c hc h
        exact ⟨d + 1, .under hc hd⟩
  · rintro ⟨d, h⟩
    induction h with
    | root => rw [nodes_eq]; exact .head _
    | under hc _ ih =>
      rw [nodes_eq]
      exact .tail _ (List.mem_flatMap.2 ⟨_, hc, ih⟩)

/-- A tree is a node of itself. -/
theorem self_mem_nodes (r : Rule α) : r ∈ r.nodes := mem_nodes_iff.2 ⟨0, .root⟩

/-- A node below the root is a condition of a node one step higher up. -/
theorem At.exists_parent {n r : Rule α} {d : Nat} (h : At n (d + 1) r) :
    ∃ m, At m d r ∧ n ∈ m.conditions := by
  induction d generalizing r with
  | zero =>
    obtain _ | ⟨hc, h⟩ := h
    cases h
    exact ⟨r, .root, hc⟩
  | succ d ih =>
    obtain _ | ⟨hc, h⟩ := h
    obtain ⟨m, hm, hn⟩ := ih h
    exact ⟨m, .under hc hm, hn⟩

/-- The conditions of a node stand one step below it. -/
theorem At.condition {n m r : Rule α} {d : Nat} (h : At m d r) (hn : n ∈ m.conditions) :
    At n (d + 1) r := by
  induction h with
  | root => exact .under hn .root
  | under hc _ ih => exact .under hc ih

/-- The filters of a tree are those of its nodes that are leaves. -/
theorem mem_leaves_iff {a : α} {r : Rule α} : a ∈ r.leaves ↔ leaf a ∈ r.nodes := by
  induction r with
  | leaf b => simp [nodes]
  | group id op invert conditions ih =>
    rw [nodes_eq, List.mem_cons, List.mem_flatMap, mem_leaves_group]
    constructor
    · rintro ⟨c, hc, ha⟩
      exact .inr ⟨c, hc, (ih c hc).1 ha⟩
    · rintro (h | ⟨c, hc, ha⟩)
      · cases h
      · exact ⟨c, hc, (ih c hc).2 ha⟩

/-- Other filters make other nodes, in the same places. -/
theorem nodes_map {β : Type} (f : α → β) (r : Rule α) :
    (r.map f).nodes = r.nodes.map (map f) := by
  induction r with
  | leaf a => rfl
  | group id op invert conditions ih =>
    simp only [map, mapList_eq, nodes, nodesOf_eq, List.map_cons, List.flatMap_map,
      List.map_flatMap]
    congr 1
    exact List.flatMap_congr ih

/-- The filters of a node are filters of the whole tree. -/
theorem mem_leaves_of_mem_nodes {n r : Rule α} {a : α} (hn : n ∈ r.nodes) (ha : a ∈ n.leaves) :
    a ∈ r.leaves := by
  rw [mem_nodes_iff] at hn
  obtain ⟨d, hn⟩ := hn
  induction hn with
  | root => exact ha
  | @under d c r hc _ ih =>
    cases r with
    | leaf b => cases hc
    | group id op invert conditions => exact mem_leaves_group.2 ⟨c, hc, ih⟩

/-! ## Ids and entries -/

variable [Leaf α]

mutual

/-- The ids of all nodes with their entries in a table, for a root with this parent. -/
def entries (parent : String) : Rule α → List (String × Entry α)
  | leaf a => [(Leaf.id a, (leaf a).entry parent)]
  | group id op invert conditions =>
    (id, (group id op invert conditions).entry parent) :: entriesOf id conditions

def entriesOf (parent : String) : List (Rule α) → List (String × Entry α)
  | [] => []
  | r :: rest => entries parent r ++ entriesOf parent rest

end

/-- The entries of several trees are those of each, all with the same parent. -/
theorem entriesOf_eq (parent : String) (rs : List (Rule α)) :
    entriesOf parent rs = rs.flatMap (entries parent) := by
  induction rs with
  | nil => rfl
  | cons r rest ih => simp [entriesOf, ih]

/-- The entries of a tree are its own and those of its conditions, whose parent it is. -/
theorem entries_eq (parent : String) (r : Rule α) :
    r.entries parent = (r.id, r.entry parent) :: r.conditions.flatMap (entries r.id) := by
  cases r <;> simp [entries, entriesOf_eq]

@[simp] theorem map_fst_entries (parent : String) (r : Rule α) :
    (r.entries parent).map (·.1) = r.ids := by
  induction r using induct_conditions generalizing parent with
  | step r ih =>
    rw [entries_eq, ids_eq, List.map_cons, List.map_flatMap]
    congr 1
    exact List.flatMap_congr fun c hc => ih c hc r.id

@[simp] theorem map_id_nodes (r : Rule α) : r.nodes.map Rule.id = r.ids := by
  induction r using induct_conditions with
  | step r ih =>
    rw [nodes_eq, ids_eq, List.map_cons, List.map_flatMap]
    congr 1
    exact List.flatMap_congr ih

/-- Other filters with the same ids. -/
theorem ids_map {β : Type} [Leaf β] {f : α → β} (hf : ∀ a, Leaf.id (f a) = Leaf.id a)
    (r : Rule α) : (r.map f).ids = r.ids := by
  have hid : ∀ n : Rule α, (n.map f).id = n.id := by
    intro n
    cases n with
    | leaf a => exact hf a
    | group => rfl
  rw [← map_id_nodes, nodes_map, List.map_map, ← map_id_nodes]
  exact List.map_congr_left fun n _ => hid n

/-- A tree has its own id. -/
theorem id_mem_ids (r : Rule α) : r.id ∈ r.ids := by
  rw [ids_eq]
  exact .head _

/-- The ids of a tree are those of its nodes. -/
theorem mem_ids_iff {id : String} {r : Rule α} : id ∈ r.ids ↔ ∃ n ∈ r.nodes, n.id = id := by
  rw [← map_id_nodes r, List.mem_map]

/-- A condition brings no ids of its own into the tree. -/
theorem ids_subset_of_mem_conditions {c r : Rule α} (h : c ∈ r.conditions) : c.ids ⊆ r.ids := by
  intro k hk
  rw [ids_eq r]
  exact .tail _ (List.mem_flatMap.2 ⟨c, h, hk⟩)

/-- A condition is smaller than the tree, which has its own id besides. -/
theorem length_ids_lt_of_mem_conditions {c r : Rule α} (h : c ∈ r.conditions) :
    c.ids.length < r.ids.length := by
  have hc : c.ids.length ≤ (r.conditions.flatMap ids).length :=
    (List.sublist_flatten_of_mem (List.mem_map_of_mem h)).length_le
  rw [ids_eq r, List.length_cons]
  omega

/-- The entries of a tree are that of its root and, for every other node, the one that names the
group around it. -/
theorem mem_entries_iff {parent : String} {x : String × Entry α} {r : Rule α} :
    x ∈ r.entries parent ↔ x = (r.id, r.entry parent) ∨
      ∃ m ∈ r.nodes, ∃ n ∈ m.conditions, x = (n.id, n.entry m.id) := by
  induction r using induct_conditions generalizing parent with
  | step r ih =>
    rw [entries_eq, List.mem_cons, List.mem_flatMap, nodes_eq]
    refine or_congr_right ⟨?_, ?_⟩
    · rintro ⟨c, hc, hx⟩
      rcases (ih c hc).1 hx with rfl | ⟨m, hm, n, hn, rfl⟩
      · exact ⟨r, .head _, c, hc, rfl⟩
      · exact ⟨m, .tail _ (List.mem_flatMap.2 ⟨c, hc, hm⟩), n, hn, rfl⟩
    · rintro ⟨m, hm, n, hn, rfl⟩
      rcases List.mem_cons.1 hm with rfl | hm
      · exact ⟨n, hn, (ih n hn).2 (.inl rfl)⟩
      · obtain ⟨c, hc, hm⟩ := List.mem_flatMap.1 hm
        exact ⟨c, hc, (ih c hc).2 (.inr ⟨m, hm, n, hn, rfl⟩)⟩

/-! ## Distinct ids -/

/-- Distinct ids stay distinct in every condition. -/
theorem nodup_of_mem_conditions {c r : Rule α} (hr : r.ids.Nodup) (h : c ∈ r.conditions) :
    c.ids.Nodup := by
  rw [ids_eq] at hr
  exact (List.nodup_flatMap.1 (List.nodup_cons.1 hr).2).1 c h

/-- With distinct ids no condition repeats the id of the group. -/
theorem id_notMem_ids_of_mem_conditions {c r : Rule α} (hr : r.ids.Nodup)
    (h : c ∈ r.conditions) : r.id ∉ c.ids := by
  rw [ids_eq] at hr
  exact fun hk => (List.nodup_cons.1 hr).1 (List.mem_flatMap.2 ⟨c, h, hk⟩)

/-- Conditions of one group that share an id are the same condition. -/
theorem eq_of_mem_ids {k : String} {c d r : Rule α} (hr : r.ids.Nodup) (hc : c ∈ r.conditions)
    (hd : d ∈ r.conditions) (hkc : k ∈ c.ids) (hkd : k ∈ d.ids) : c = d := by
  rw [ids_eq] at hr
  have hdis := (List.nodup_flatMap.1 (List.nodup_cons.1 hr).2).2
  have : Std.Symm (Function.onFun List.Disjoint (ids (α := α))) := ⟨fun _ _ h _ hx hy => h hy hx⟩
  by_contra hne
  exact hdis.forall hc hd hne hkc hkd

/-! ## Ids of nodes -/

namespace At

variable {n m r : Rule α} {d : Nat}

/-- The ids of a node are ids of the tree it stands in. -/
theorem ids_subset (h : At n d r) : n.ids ⊆ r.ids := by
  induction h with
  | root => exact fun _ hk => hk
  | under hc _ ih => exact List.Subset.trans ih (ids_subset_of_mem_conditions hc)

/-- Distinct ids stay distinct in every node. -/
theorem nodup (h : At n d r) (hr : r.ids.Nodup) : n.ids.Nodup := by
  induction h with
  | root => exact hr
  | under hc _ ih => exact ih (nodup_of_mem_conditions hr hc)

/-- A node stands no deeper than there are nodes outside its own tree. -/
theorem add_length_le (h : At n d r) : d + n.ids.length ≤ r.ids.length := by
  induction h with
  | root => simp
  | under hc _ ih =>
    have := length_ids_lt_of_mem_conditions hc
    omega

/-- The entries of a node are among those of the tree. -/
theorem entries_subset (h : At n d r) (parent : String) :
    ∃ above, n.entries above ⊆ r.entries parent := by
  induction h generalizing parent with
  | root => exact ⟨parent, fun _ hx => hx⟩
  | @under d c r hc _ ih =>
    obtain ⟨above, habove⟩ := ih r.id
    refine ⟨above, fun x hx => ?_⟩
    rw [entries_eq]
    exact .tail _ (List.mem_flatMap.2 ⟨c, hc, habove hx⟩)

/-- Where ids are distinct, an id has one node and one depth. -/
theorem unique {d' : Nat} (hr : r.ids.Nodup) (hn : At n d r) (hm : At m d' r)
    (hid : n.id = m.id) : n = m ∧ d = d' := by
  induction hn generalizing d' with
  | root =>
    cases hm with
    | root => exact ⟨rfl, rfl⟩
    | under hc hm =>
      refine absurd ?_ (id_notMem_ids_of_mem_conditions hr hc)
      exact hid ▸ hm.ids_subset m.id_mem_ids
  | under hc hn ih =>
    cases hm with
    | root =>
      refine absurd ?_ (id_notMem_ids_of_mem_conditions hr hc)
      exact hid ▸ hn.ids_subset n.id_mem_ids
    | under hc' hm =>
      obtain rfl := eq_of_mem_ids hr hc hc' (hn.ids_subset n.id_mem_ids)
        (hid ▸ hm.ids_subset m.id_mem_ids)
      obtain ⟨hnm, hd⟩ := ih (nodup_of_mem_conditions hr hc) hm
      exact ⟨hnm, by rw [hd]⟩

end At

/-- With distinct ids the id of a node tells which node it is. -/
theorem eq_of_id_eq {n m r : Rule α} (hr : r.ids.Nodup) (hn : n ∈ r.nodes) (hm : m ∈ r.nodes)
    (hid : n.id = m.id) : n = m := by
  obtain ⟨d, hn⟩ := mem_nodes_iff.1 hn
  obtain ⟨d', hm⟩ := mem_nodes_iff.1 hm
  exact (hn.unique hr hm hid).1

/-- The first node with this id. -/
def node? (id : String) (r : Rule α) : Option (Rule α) := r.nodes.find? (·.id = id)

/-- With distinct ids a node is found by its id. -/
theorem node?_eq_some {n r : Rule α} (hr : r.ids.Nodup) (hn : n ∈ r.nodes) :
    r.node? n.id = some n := by
  cases h : r.node? n.id with
  | none => simpa using List.find?_eq_none.1 h n hn
  | some m =>
    have hid : m.id = n.id := by simpa using List.find?_some h
    rw [eq_of_id_eq hr (List.mem_of_find?_eq_some h) hn hid]

end RecordRules.Rule
