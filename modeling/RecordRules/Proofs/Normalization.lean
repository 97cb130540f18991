import RecordRules.Proofs.Builtins
import RecordRules.Proofs.Registry

/-!
# What normalization keeps

Normalization keeps the drafts that become filters on their own and the groups around them, in
their order, and drops everything else (`normalize_exact`).  So what it returns compiles, and its
filters are as many as the drafts that become filters on their own (`validLeafCount_exact`).
-/

namespace RecordRules

namespace Resolver

/-- The draft becomes a filter on its own. -/
def normalizes (r : Resolver) (f : Draft) : Bool := (r.normalize (.leaf f)).isOk

/-- What is left of the drafts are those that become filters on their own, in the groups that had
any of them, and the resolver takes what is left. -/
structure Normalized (r : Resolver) (d : Rule Draft) (s : Rule Filter) : Prop where
  leaves : s.leaves.map Filter.toDraft = (d.leaves.filter r.normalizes).map Draft.settle
  tree : s.toDraft = (d.keep r.normalizes).map Draft.settle
  /-- The nodes are those with such a draft below them, each group before its conditions. -/
  nodes : s.nodes.map Rule.toDraft =
    (d.nodes.filter (·.leaves.any r.normalizes)).map fun n => (n.keep r.normalizes).map Draft.settle
  conditions : ∀ n ∈ s.nodes, n.isGroup = true → n.conditions ≠ []
  resolves : ∀ f ∈ s.leaves, r.Resolves f
  compiles : ∃ p, r.compileFilter s = .ok p

variable {r : Resolver} {d : Rule Draft} {s : Rule Filter}

/-- A single draft is normalized by its check. -/
theorem normalize_leaf (r : Resolver) (f : Draft) :
    r.normalize (.leaf f) = (r.checkDraft f).map .leaf := by
  rw [normalize, Rule.prune]

/-- The drafts that pass the check are those that normalize on their own. -/
theorem passes_checkDraft (r : Resolver) : Rule.passes r.checkDraft = r.normalizes := by
  funext f
  rw [Rule.passes, normalizes, normalize_leaf]
  cases r.checkDraft f <;> rfl

/-- A draft becomes a filter on its own if the filter that it proposes resolves. -/
theorem normalizes_iff {f : Draft} :
    r.normalizes f = true ↔ ∃ g : Filter, f.settle = g.toDraft ∧ r.Resolves g := by
  rw [← passes_checkDraft, Rule.passes, isOk_iff]
  exact exists_congr fun g => checkDraft_eq_ok_iff

/-- Normalization succeeds when some draft normalizes, and then checks what is kept of the rule. -/
theorem normalize_eq_ok_iff : r.normalize d = .ok s ↔
    d.leaves.any r.normalizes = true ∧ (d.keep r.normalizes).traverse r.checkDraft = .ok s := by
  rw [← passes_checkDraft]
  exact Rule.prune_eq_ok_iff

/-- What is normalized is the rule that was kept, with every flag settled. -/
theorem toDraft_of_normalize (h : r.normalize d = .ok s) :
    s.toDraft = (d.keep r.normalizes).map Draft.settle :=
  (Rule.map_eq_map_of_traverse (fun _ _ hf => (checkDraft_eq_ok_iff.1 hf).1)
    (normalize_eq_ok_iff.1 h).2).symm

/-- Normalization fails when no draft normalizes on its own. -/
theorem exists_normalize_eq_error_iff : (∃ issue, r.normalize d = .error issue) ↔
    ∀ f ∈ d.leaves, ∃ issue, r.normalize (.leaf f) = .error issue := by
  simp only [exists_eq_error_iff]
  calc
    _ ↔ ¬ ∃ s, r.normalize d = .ok s := by rw [← isOk_iff, Bool.not_eq_true]
    _ ↔ d.leaves.any r.normalizes = false := by
      rw [normalize, Rule.exists_prune_eq_ok_iff, passes_checkDraft, Bool.not_eq_true]
    _ ↔ _ := by simp only [List.any_eq_false, Bool.not_eq_true, normalizes]

/-- The filters are made of the drafts that normalize, in their order. -/
theorem leaves_of_normalize (h : r.normalize d = .ok s) :
    s.leaves.map Filter.toDraft = (d.leaves.filter r.normalizes).map Draft.settle := by
  have hany := (normalize_eq_ok_iff.1 h).1
  rw [← Rule.leaves_keep hany, ← Rule.leaves_map, ← Rule.leaves_map, ← toDraft_of_normalize h]
  rfl

/-- The nodes are made of those with such a draft below them, in their order. -/
theorem nodes_of_normalize (h : r.normalize d = .ok s) : s.nodes.map Rule.toDraft =
    (d.nodes.filter (·.leaves.any r.normalizes)).map
      fun n => (n.keep r.normalizes).map Draft.settle := by
  have hany := (normalize_eq_ok_iff.1 h).1
  calc
    s.nodes.map Rule.toDraft = s.toDraft.nodes := (Rule.nodes_map Filter.toDraft s).symm
    _ = (d.keep r.normalizes).nodes.map (Rule.map Draft.settle) := by
      rw [toDraft_of_normalize h, Rule.nodes_map]
    _ = _ := by rw [Rule.nodes_keep hany, List.map_map]; rfl

/-- Each node of a normalized rule has a filter below it. -/
theorem leaves_ne_nil_of_normalize (h : r.normalize d = .ok s) {n : Rule Filter}
    (hn : n ∈ s.nodes) : n.leaves ≠ [] := by
  have hmem := List.mem_map_of_mem (f := Rule.toDraft) hn
  rw [nodes_of_normalize h] at hmem
  obtain ⟨m, hm, hmn⟩ := List.mem_map.1 hmem
  have hany := (List.mem_filter.1 hm).2
  obtain ⟨f, hf, hvalid⟩ := List.any_eq_true.1 hany
  have hkept : f ∈ (m.keep r.normalizes).leaves := by
    rw [Rule.leaves_keep hany]
    exact List.mem_filter.2 ⟨hf, hvalid⟩
  have hsettled : f.settle ∈ n.toDraft.leaves := by
    rw [← hmn, Rule.leaves_map]
    exact List.mem_map_of_mem hkept
  rw [Rule.toDraft, Rule.leaves_map] at hsettled
  intro hnil
  rw [hnil] at hsettled
  cases hsettled

/-- No group is left without conditions. -/
theorem conditions_ne_nil_of_normalize (h : r.normalize d = .ok s) {n : Rule Filter}
    (hn : n ∈ s.nodes) (hgroup : n.isGroup = true) : n.conditions ≠ [] := by
  intro hnil
  cases n with
  | leaf f => cases hgroup
  | group id op invert conditions =>
    rw [Rule.conditions_group] at hnil
    subst hnil
    exact leaves_ne_nil_of_normalize h hn rfl

/-- A rule without empty groups whose filters resolve is what its drafts normalize to. -/
theorem normalize_toDraft (hresolves : ∀ f ∈ s.leaves, r.Resolves f)
    (hgroups : ∀ n ∈ s.nodes, n.isGroup = true → n.conditions ≠ []) :
    r.normalize s.toDraft = .ok s :=
  Rule.prune_map_eq_self (fun f hf => checkDraft_toDraft (hresolves f hf)) hgroups

/-- Normalizing again changes nothing. -/
theorem normalize_toDraft_of_normalize (h : r.normalize d = .ok s) :
    r.normalize s.toDraft = .ok s :=
  normalize_toDraft (fun _ hf => resolves_of_normalize h hf) fun _ hn =>
    conditions_ne_nil_of_normalize h hn

/-- A rule normalizes unless none of its drafts does on its own.  It then has exactly those that
do, within the groups that had any of them, and compiles. -/
theorem normalize_exact (r : Resolver) (d : Rule Draft) :
    ((∃ issue, r.normalize d = .error issue) ↔
      ∀ f ∈ d.leaves, ∃ issue, r.normalize (.leaf f) = .error issue) ∧
    ∀ s, r.normalize d = .ok s → r.Normalized d s := by
  refine ⟨exists_normalize_eq_error_iff, fun s h => ?_⟩
  have hresolves : ∀ f ∈ s.leaves, r.Resolves f := fun f hf => resolves_of_normalize h hf
  refine ⟨leaves_of_normalize h, toDraft_of_normalize h, nodes_of_normalize h,
    fun n hn => conditions_ne_nil_of_normalize h hn, hresolves, ?_⟩
  obtain ⟨bound, hbound, -⟩ := exists_compileFilter_eq_ok hresolves
  exact ⟨_, hbound⟩

/-- Of four drafts two become filters: one is without an operation, and one asks for a field that
the records do not have.  The group of the first goes with it. -/
theorem normalize_exact_mixed : ∃ (r : Resolver) (d : Rule Draft) (s : Rule Filter),
    Registry.builtinFilters = .ok r.registry ∧ r.schema = .record [("n", .int)] ∧
    d = .group "g" .or true
      [.leaf ⟨"a", some [.field "n"], some "greater than", [.int 5], none⟩,
        .group "h" .and false [.leaf ⟨"b", some [.field "n"], none, [], none⟩],
        .group "i" .and false
          [.leaf ⟨"c", some [.field "m"], some "greater than", [.int 5], some true⟩,
            .leaf ⟨"d", some [.field "n"], some "greater than", [.int 7], some true⟩]] ∧
    s = .group "g" .or true [.leaf ⟨"a", [.field "n"], "greater than", [.int 5], false⟩,
      .group "i" .and false [.leaf ⟨"d", [.field "n"], "greater than", [.int 7], true⟩]] ∧
    r.normalize d = .ok s ∧ r.Normalized d s := by
  obtain ⟨⟨role, operations, index⟩, hregistry⟩ := Builtins.exists_registry
  obtain ⟨-, rfl, -⟩ := Registry.ofList_eq_ok hregistry
  have hmem : Builtins.greaterThan ∈ Builtins.filters := .tail _ (.head _)
  have hget : Registry.get? ⟨.filter, operations, index⟩ "greater than" =
      some Builtins.greaterThan := Registry.get?_of_ofList hregistry hmem
  let r : Resolver := ⟨⟨.filter, operations, index⟩, .record [("n", .int)], Ty.accepts⟩
  have hgreater : ∀ id i invert,
      r.Resolves ⟨id, [.field "n"], "greater than", [.int i], invert⟩ := by
    intro id i invert
    have haccepts := Ty.accepts_self .int
    exact ⟨_, resolve_eq_ok_iff.2
      ⟨Builtins.greaterThan, .int, hget, rfl, rfl, if_pos haccepts⟩, rfl⟩
  have ha : r.checkDraft ⟨"a", some [.field "n"], some "greater than", [.int 5], none⟩ =
      .ok ⟨"a", [.field "n"], "greater than", [.int 5], false⟩ :=
    checkDraft_eq_ok_iff.2 ⟨rfl, hgreater _ _ _⟩
  have hd : r.checkDraft ⟨"d", some [.field "n"], some "greater than", [.int 7], some true⟩ =
      .ok ⟨"d", [.field "n"], "greater than", [.int 7], true⟩ :=
    checkDraft_eq_ok_iff.2 ⟨rfl, hgreater _ _ _⟩
  have hb : r.checkDraft ⟨"b", some [.field "n"], none, [], none⟩ =
      .error (.missingOperation "b") := rfl
  have hc : r.checkDraft ⟨"c", some [.field "m"], some "greater than", [.int 5], some true⟩ =
      .error (.pathNotInSchema [.field "m"]) := by
    have hresolve : r.resolve "greater than" [.field "m"] =
        .error (.pathNotInSchema [.field "m"]) := by
      rw [resolve, hget]
      rfl
    simp only [checkDraft, hresolve]
    rfl
  have hs : r.normalize (.group "g" .or true
      [.leaf ⟨"a", some [.field "n"], some "greater than", [.int 5], none⟩,
        .group "h" .and false [.leaf ⟨"b", some [.field "n"], none, [], none⟩],
        .group "i" .and false
          [.leaf ⟨"c", some [.field "m"], some "greater than", [.int 5], some true⟩,
            .leaf ⟨"d", some [.field "n"], some "greater than", [.int 7], some true⟩]]) =
      .ok (.group "g" .or true [.leaf ⟨"a", [.field "n"], "greater than", [.int 5], false⟩,
        .group "i" .and false [.leaf ⟨"d", [.field "n"], "greater than", [.int 7], true⟩]]) := by
    simp only [normalize, Rule.prune, Rule.pruneList, ha, hb, hc, hd]
    rfl
  exact ⟨r, _, _, hregistry, rfl, rfl, rfl, hs, (normalize_exact r _).2 _ hs⟩

/-! ## How many filters are kept -/

/-- Where normalization fails there is no such draft to count. -/
theorem validLeafCount_eq (r : Resolver) (d : Rule Draft) :
    r.validLeafCount d = d.leaves.countP r.normalizes := by
  unfold validLeafCount
  cases h : r.normalize d with
  | ok s =>
    calc
      s.leafCount = (s.leaves.map Filter.toDraft).length := by
        rw [Rule.leafCount_eq, List.length_map]
      _ = (d.leaves.filter r.normalizes).length := by
        rw [leaves_of_normalize h, List.length_map]
      _ = _ := List.countP_eq_length_filter.symm
  | error issue =>
    have hnone := exists_normalize_eq_error_iff.1 ⟨issue, h⟩
    refine (List.countP_eq_zero.2 fun f hf => ?_).symm
    rw [Bool.not_eq_true]
    exact exists_eq_error_iff.1 (hnone f hf)

/-- The filters that normalization keeps are counted by the drafts that become filters on their own,
however deep they lie and whatever becomes of the groups around them. -/
theorem validLeafCount_exact (r : Resolver) (d : Rule Draft) :
    r.validLeafCount d = d.leaves.countP (fun f => (r.normalize (.leaf f)).isOk) ∧
      r.validLeafCount d ≤ d.leafCount ∧
      (r.validLeafCount d = d.leafCount ↔ ∀ f ∈ d.leaves, ∃ g, r.normalize (.leaf f) = .ok g) ∧
      (r.validLeafCount d = 0 ↔
        ∀ f ∈ d.leaves, ∃ issue, r.normalize (.leaf f) = .error issue) := by
  have hvalid : ∀ f, r.normalizes f = true ↔ ∃ g, r.normalize (.leaf f) = .ok g := fun f => isOk_iff
  have hfails : ∀ f, ¬ r.normalizes f = true ↔ ∃ issue, r.normalize (.leaf f) = .error issue := by
    intro f
    rw [Bool.not_eq_true]
    exact exists_eq_error_iff.symm
  rw [validLeafCount_eq, Rule.leafCount_eq]
  refine ⟨rfl, List.countP_le_length, ?_, ?_⟩
  · rw [List.countP_eq_length]
    simp only [hvalid]
  · rw [List.countP_eq_zero]
    simp only [hfails]

end Resolver

end RecordRules
