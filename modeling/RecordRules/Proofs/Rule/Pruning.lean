import RecordRules.Normalization
import RecordRules.Proofs.Rule.Leaves
import RecordRules.Proofs.Rule.Nodes

/-!
# Pruning rules

Pruning keeps the filters that pass the check, and of the groups those with such a filter
somewhere below them (`Rule.keep`).  A rule is pruned away as a whole if none of its filters
passes (`prune_eq_ok_iff`).
-/

namespace RecordRules.Rule

variable {α β : Type}

/-! ## What is kept -/

mutual

/-- The rule without the conditions that have no filter with the property. -/
def keep (p : α → Bool) : Rule α → Rule α
  | leaf a => leaf a
  | group id op invert conditions => group id op invert (keepList p conditions)

def keepList (p : α → Bool) : List (Rule α) → List (Rule α)
  | [] => []
  | r :: rest => if r.leaves.any p then keep p r :: keepList p rest else keepList p rest

end

section

variable {p : α → Bool} {r : Rule α}

/-- Of several rules those are kept that have a filter to keep. -/
theorem keepList_eq (p : α → Bool) (rs : List (Rule α)) :
    keepList p rs = (rs.filter (·.leaves.any p)).map (keep p) := by
  induction rs with
  | nil => rfl
  | cons r rest ih =>
    rw [keepList, List.filter_cons]
    split
    · rw [List.map_cons, ih]
    · exact ih

/-- Nothing is kept when there is no filter to keep. -/
theorem keepList_eq_nil_iff {rs : List (Rule α)} :
    keepList p rs = [] ↔ (leavesOf rs).any p = false := by
  rw [keepList_eq, List.map_eq_nil_iff, List.filter_eq_nil_iff, leavesOf_eq, List.any_flatMap,
    List.any_eq_false]

/-- The filters that are kept are the ones asked for, in their order. -/
theorem leaves_keep (h : r.leaves.any p = true) : (r.keep p).leaves = r.leaves.filter p := by
  induction r with
  | leaf a =>
    have ha : p a = true := by simpa [leaves] using h
    simp [keep, leaves, ha]
  | group id op invert conditions ih =>
    rw [keep, leaves, leaves, leavesOf_eq, leavesOf_eq, keepList_eq, List.flatMap_map,
      List.filter_flatMap]
    calc
      _ = (conditions.filter (·.leaves.any p)).flatMap fun c => c.leaves.filter p :=
        List.flatMap_congr fun c hc => ih c (List.mem_of_mem_filter hc) (List.mem_filter.1 hc).2
      _ = _ := flatMap_filter_eq fun c _ hc => by simpa using hc

/-- No node of a rule without such filters is kept. -/
theorem filter_nodes_eq_nil (h : r.leaves.any p = false) :
    r.nodes.filter (·.leaves.any p) = [] := by
  rw [List.filter_eq_nil_iff]
  intro n hn
  rw [Bool.not_eq_true, List.any_eq_false] at *
  exact fun a ha => h a (mem_leaves_of_mem_nodes hn ha)

/-- The nodes that are kept are those with such a filter below them, in their order. -/
theorem nodes_keep (h : r.leaves.any p = true) :
    (r.keep p).nodes = (r.nodes.filter (·.leaves.any p)).map (keep p) := by
  induction r with
  | leaf a => simp only [keep, nodes, List.filter_cons, h, if_true, List.filter_nil, List.map]
  | group id op invert conditions ih =>
    rw [nodes, List.filter_cons, if_pos h, List.map_cons, keep, nodes, nodesOf_eq, nodesOf_eq,
      keepList_eq, List.flatMap_map, List.filter_flatMap, List.map_flatMap]
    congr 1
    calc
      _ = (conditions.filter (·.leaves.any p)).flatMap
            fun c => (c.nodes.filter (·.leaves.any p)).map (keep p) :=
        List.flatMap_congr fun c hc => ih c (List.mem_of_mem_filter hc) (List.mem_filter.1 hc).2
      _ = _ := flatMap_filter_eq fun c _ hc => by rw [filter_nodes_eq_nil hc, List.map_nil]

end

/-- No id is added, and those that are left stand in their order. -/
theorem ids_keep_sublist [Leaf α] {p : α → Bool} {r : Rule α} (h : r.leaves.any p = true) :
    (r.keep p).ids.Sublist r.ids := by
  have hid : Rule.id ∘ keep p = Rule.id := by
    funext n
    cases n <;> rfl
  rw [← map_id_nodes, nodes_keep h, List.map_map, hid, ← map_id_nodes]
  exact List.filter_sublist.map Rule.id

/-! ## What pruning keeps -/

/-- The filter passes the check. -/
def passes (check : α → Except Issue β) (a : α) : Bool := (check a).isOk

section

variable {check : α → Except Issue β} {r : Rule α} {s : Rule β}

/-- What is kept of a rule passes the check as a whole. -/
theorem exists_traverse_keep_eq_ok (h : r.leaves.any (passes check) = true) :
    ∃ s, (r.keep (passes check)).traverse check = .ok s := by
  refine exists_traverse_eq_ok_iff.2 fun a ha => ?_
  rw [leaves_keep h] at ha
  exact isOk_iff.1 (List.mem_filter.1 ha).2

/-- Pruning several rules is checking what is kept of them, provided it is so for each rule. -/
theorem traverseList_keepList {rs : List (Rule α)}
    (h : ∀ r ∈ rs, ∀ s, r.prune check = .ok s ↔
      r.leaves.any (passes check) = true ∧ (r.keep (passes check)).traverse check = .ok s) :
    traverseList check (keepList (passes check) rs) = .ok (pruneList check rs) := by
  induction rs with
  | nil => rfl
  | cons r rest ih =>
    obtain ⟨hr, hrest⟩ := List.forall_mem_cons.1 h
    have hrest := ih hrest
    rw [keepList, pruneList]
    by_cases hkept : r.leaves.any (passes check) = true
    · obtain ⟨s, hs⟩ := exists_traverse_keep_eq_ok hkept
      rw [if_pos hkept, traverseList, hs, hrest, (hr s).2 ⟨hkept, hs⟩]
      rfl
    · rw [if_neg hkept, hrest]
      cases hs : r.prune check with
      | error issue => rfl
      | ok s => exact absurd ((hr s).1 hs).1 hkept

/-- A rule with filters that pass is pruned to these, each of them turned into what it passes
as. -/
theorem prune_eq_ok_iff : r.prune check = .ok s ↔
    r.leaves.any (passes check) = true ∧ (r.keep (passes check)).traverse check = .ok s := by
  induction r generalizing s with
  | leaf a =>
    rw [prune, keep, traverse, leaves, List.any_cons, List.any_nil, Bool.or_false, passes, isOk_iff]
    constructor
    · intro h
      obtain ⟨b, hb, -⟩ := map_eq_ok_iff.1 h
      exact ⟨⟨b, hb⟩, h⟩
    · exact And.right
  | group id op invert conditions ih =>
    have hlist := traverseList_keepList fun c hc s => ih c hc
    -- a group is dropped by one function exactly if it is by the other
    have hnil : keepList (passes check) conditions = [] ↔ pruneList check conditions = [] := by
      rw [traverseList_eq, mapM_eq_ok_iff] at hlist
      constructor <;> intro h <;> rw [h] at hlist
      · exact List.forall₂_nil_left_iff.1 hlist
      · exact List.forall₂_nil_right_iff.1 hlist
    rw [keepList_eq_nil_iff] at hnil
    rw [prune, keep, traverse, leaves, hlist]
    cases hkept : pruneList check conditions with
    | nil => simp [hnil.2 hkept]
    | cons k kept =>
      have hany : (leavesOf conditions).any (passes check) = true := by
        rw [← Bool.not_eq_false, hnil, hkept]
        exact List.cons_ne_nil k kept
      simp [hany, Except.map]

/-- A rule survives pruning when one of its filters does. -/
theorem exists_prune_eq_ok_iff :
    (∃ s, r.prune check = .ok s) ↔ r.leaves.any (passes check) = true := by
  constructor
  · rintro ⟨s, hs⟩
    exact (prune_eq_ok_iff.1 hs).1
  · intro hany
    obtain ⟨s, hs⟩ := exists_traverse_keep_eq_ok hany
    exact ⟨s, prune_eq_ok_iff.2 ⟨hany, hs⟩⟩

/-- Rules that pruning leaves alone are all kept. -/
theorem pruneList_map_eq_self {f : β → α} {ss : List (Rule β)}
    (h : ∀ s ∈ ss, (s.map f).prune check = .ok s) : pruneList check (ss.map (map f)) = ss := by
  induction ss with
  | nil => rfl
  | cons s rest ih =>
    obtain ⟨hs, hrest⟩ := List.forall_mem_cons.1 h
    rw [List.map_cons, pruneList, hs, ih hrest]

/-- Nothing is pruned from a rule without empty groups whose filters all pass. -/
theorem prune_map_eq_self {f : β → α} (hleaves : ∀ b ∈ s.leaves, check (f b) = .ok b)
    (hgroups : ∀ n ∈ s.nodes, n.isGroup = true → n.conditions ≠ []) :
    (s.map f).prune check = .ok s := by
  induction s with
  | leaf b => rw [map, prune, hleaves b (mem_leaves_leaf.2 rfl), Except.map]
  | group id op invert conditions ih =>
    have hlist : pruneList check (conditions.map (map f)) = conditions := by
      refine pruneList_map_eq_self fun c hc => ih c hc ?_ ?_
      · intro b hb
        exact hleaves b (mem_leaves_group.2 ⟨c, hc, hb⟩)
      · intro n hn
        rw [nodes_eq] at hgroups
        exact hgroups n (.tail _ (List.mem_flatMap.2 ⟨c, hc, hn⟩))
    have hne : conditions ≠ [] := hgroups _ (self_mem_nodes _) rfl
    rw [map, mapList_eq, prune, hlist]
    obtain ⟨c, rest, rfl⟩ := List.exists_cons_of_ne_nil hne
    rfl

/-- Every filter of a pruned rule was made from one of the rule. -/
theorem made_of_prune (h : r.prune check = .ok s) : Made check s r := by
  obtain ⟨hany, hs⟩ := prune_eq_ok_iff.1 h
  intro b hb
  obtain ⟨a, ha, hab⟩ := made_of_traverse hs b hb
  rw [leaves_keep hany] at ha
  exact ⟨a, List.mem_of_mem_filter ha, hab⟩

end

/-! ## Pruning with two checks -/

section

variable {check check' : α → Except Issue β} {f : β → α} {r : Rule α}

/-- A check that accepts more lets every rule survive that survived before. -/
theorem exists_prune_eq_ok (hwider : ∀ a, passes check a = true → passes check' a = true)
    {s : Rule β} (h : r.prune check = .ok s) : ∃ s', r.prune check' = .ok s' := by
  obtain ⟨a, ha, hpass⟩ := List.any_eq_true.1 (exists_prune_eq_ok_iff.1 ⟨s, h⟩)
  exact exists_prune_eq_ok_iff.2 (List.any_eq_true.2 ⟨a, ha, hwider a hpass⟩)

/-- A rule that fails under the wider check failed under the narrower one. -/
theorem exists_prune_eq_error (hwider : ∀ a, passes check a = true → passes check' a = true)
    {e : Issue} (h : r.prune check' = .error e) : ∃ e', r.prune check = .error e' := by
  cases hs : r.prune check with
  | error e' => exact ⟨e', rfl⟩
  | ok s =>
    obtain ⟨s', hs'⟩ := exists_prune_eq_ok hwider hs
    rw [h] at hs'
    cases hs'

/-- Pruning several rules twice, the narrower check last, is pruning them once, provided it is so
for each rule. -/
theorem pruneList_map_pruneList {rs : List (Rule α)}
    (hok : ∀ r ∈ rs, ∀ s, r.prune check' = .ok s → (s.map f).prune check = r.prune check)
    (herror : ∀ r ∈ rs, ∀ e, r.prune check' = .error e → ∃ e', r.prune check = .error e') :
    pruneList check ((pruneList check' rs).map (map f)) = pruneList check rs := by
  induction rs with
  | nil => rfl
  | cons r rest ih =>
    obtain ⟨hr, hrest⟩ := List.forall_mem_cons.1 hok
    obtain ⟨hr', hrest'⟩ := List.forall_mem_cons.1 herror
    have hrest := ih hrest hrest'
    cases hs : r.prune check' with
    | ok s => simp only [pruneList, hs, List.map_cons, hr s hs, hrest]
    | error e =>
      obtain ⟨e', he'⟩ := hr' e hs
      simp only [pruneList, hs, he', hrest]

/-- What a wider check leaves of a rule is pruned as the rule itself is. -/
theorem prune_map_of_prune (hwider : ∀ a, passes check a = true → passes check' a = true)
    (hback : ∀ a b, check' a = .ok b → check (f b) = check a) {s : Rule β}
    (h : r.prune check' = .ok s) : (s.map f).prune check = r.prune check := by
  induction r generalizing s with
  | leaf a =>
    obtain ⟨b, hb, rfl⟩ := map_eq_ok_iff.1 h
    rw [map, prune, prune, hback a b hb]
  | group id op invert conditions ih =>
    have hlist := pruneList_map_pruneList (fun c hc s hs => ih c hc hs)
      fun c _ e he => exists_prune_eq_error hwider he
    rw [prune] at h
    split at h
    · cases h
    · obtain rfl := Except.ok.inj h
      rw [map, mapList_eq, prune, hlist, prune]

end

end RecordRules.Rule
