import RecordRules.Proofs.Normalization
import RecordRules.Proofs.Rule.Equality

/-!
# What normalization leaves as it is

A rule of filters is what its own drafts normalize to exactly if none of its groups is empty and all
its filters resolve (`normalize_toDraft_fixed`), as in everything that normalization returns.

Nodes are dropped but never added, so a rule that is left with as many nodes as before has lost none
of them: each node has a filter below it that becomes one again (`clean_of_length_eq`).
-/

namespace RecordRules

/-- No two filters have the same draft. -/
theorem Filter.toDraft_injective : Function.Injective Filter.toDraft := by
  intro f g h
  obtain ⟨id, path, operation, arguments, invert⟩ := f
  obtain ⟨id', path', operation', arguments', invert'⟩ := g
  simpa [Filter.toDraft] using h

/-- Equal filters have the same id. -/
theorem Filter.id_eq_of_beq {f g : Filter} (h : (f == g) = true) : f.id = g.id := by
  obtain ⟨id, path, operation, arguments, invert⟩ := f
  obtain ⟨id', path', operation', arguments', invert'⟩ := g
  change (id == id' && _) = true at h
  exact beq_iff_eq.1 (Bool.and_eq_true_iff.1 h).1

namespace Resolver

variable {r : Resolver} {d : Rule Draft} {s s' : Rule Filter}

/-- No group of the rule is empty, and all its filters resolve. -/
structure Clean (r : Resolver) (s : Rule Filter) : Prop where
  conditions : ∀ n ∈ s.nodes, n.isGroup = true → n.conditions ≠ []
  resolves : ∀ f ∈ s.leaves, r.Resolves f

/-- The draft of a filter normalizes when the filter resolves. -/
theorem normalizes_toDraft_iff {f : Filter} : r.normalizes f.toDraft = true ↔ r.Resolves f := by
  rw [normalizes_iff]
  constructor
  · rintro ⟨g, hg, hresolves⟩
    obtain rfl : f = g := Filter.toDraft_injective hg
    exact hresolves
  · intro h
    exact ⟨f, rfl, h⟩

/-- Normalization keeps as many nodes as there are with a draft below them that normalizes. -/
theorem length_nodes_of_normalize (h : r.normalize d = .ok s) :
    s.nodes.length = (d.nodes.filter (·.leaves.any r.normalizes)).length := by
  simpa using congrArg List.length (nodes_of_normalize h)

/-- A rule that keeps the number of its nodes had nothing to lose. -/
theorem clean_of_length_eq (h : r.normalize s.toDraft = .ok s')
    (hlength : s'.nodes.length = s.nodes.length) : r.Clean s := by
  have hnodes : s.toDraft.nodes = s.nodes.map Rule.toDraft := Rule.nodes_map Filter.toDraft s
  rw [length_nodes_of_normalize h, ← List.length_map Rule.toDraft, ← hnodes,
    List.length_filter_eq_length_iff] at hlength
  -- as no node is lost, each has a filter below it that normalizes, also a leaf and an empty group
  have hkept : ∀ n ∈ s.nodes, n.toDraft.leaves.any r.normalizes = true := fun n hn =>
    hlength _ (hnodes ▸ List.mem_map_of_mem hn)
  constructor
  · intro n hn hgroup hnil
    cases n with
    | leaf f => cases hgroup
    | group id op invert conditions =>
      obtain rfl : conditions = [] := hnil
      cases hkept _ hn
  · intro f hf
    have hleaf := hkept _ (Rule.mem_leaves_iff.1 hf)
    refine normalizes_toDraft_iff.1 ?_
    simpa [Rule.toDraft, Rule.map, Rule.leaves] using hleaf

/-- A rule that normalizes to an equal one has lost no node, so it was clean. -/
theorem clean_of_beq (h : r.normalize s.toDraft = .ok s') (heq : (s' == s) = true) :
    r.Clean s := by
  have hids : s'.ids = s.ids := Rule.ids_eq_of_beq (fun _ _ => Filter.id_eq_of_beq) heq
  rw [← Rule.map_id_nodes, ← Rule.map_id_nodes] at hids
  exact clean_of_length_eq h (by simpa only [List.length_map] using congrArg List.length hids)

/-- A rule is what its drafts normalize to, exactly or up to equal arguments, if and only if no
group in it is empty and all its filters resolve.  So nothing more is lost when a rule is
normalized again. -/
theorem normalize_toDraft_fixed (r : Resolver) (s : Rule Filter) :
    (r.normalize s.toDraft = .ok s ↔
      (∀ n ∈ s.nodes, n.isGroup = true → n.conditions ≠ []) ∧
        ∀ f ∈ s.leaves, ∃ op, r.resolve f.operation f.path = .ok op ∧
          checkArguments op f.arguments = .ok ()) ∧
    (∀ s', r.normalize s.toDraft = .ok s' → (s' == s) = true → s' = s) ∧
    ∀ d, r.normalize d = .ok s → r.normalize s.toDraft = .ok s := by
  refine ⟨⟨fun h => ?_, fun h => ?_⟩, fun s' h heq => ?_, fun d => normalize_toDraft_of_normalize⟩
  · have hclean := clean_of_length_eq h rfl
    exact ⟨hclean.conditions, hclean.resolves⟩
  · exact normalize_toDraft h.2 h.1
  · have hclean := clean_of_beq h heq
    exact Except.ok.inj (h.symm.trans (normalize_toDraft hclean.resolves hclean.conditions))

/-- Normalizing drops a draft without an operation and keeps a group inside another one; a group
that is empty from the start does not come back. -/
theorem normalize_toDraft_fixed_nested :
    let r : Resolver := ⟨(Registry.empty .filter).registerAll Builtins.filters,
      .record [("price", .decimal)], Ty.accepts⟩
    let f : Filter := ⟨"b", [.field "price"], "greater than", [.int 5], true⟩
    let d : Rule Draft := .group "g" .or true [.leaf (.empty "a"),
      .group "h" .and false [.leaf f.toDraft, .leaf (.empty "c")]]
    let s : Rule Filter := .group "g" .or true [.group "h" .and false [.leaf f]]
    let e : Rule Filter := .group "g" .or true [.leaf f, .group "h" .and false []]
    (r.normalize d = .ok s ∧ r.normalize s.toDraft = .ok s) ∧ r.normalize e.toDraft ≠ .ok e := by
  intro r f d s e
  have haccepts := Ty.accepts_self .decimal
  have hf : r.checkDraft f.toDraft = .ok f :=
    checkDraft_toDraft ⟨_, resolve_eq_ok_iff.2
      ⟨Builtins.greaterThan, .decimal, rfl, rfl, rfl, if_pos haccepts⟩, rfl⟩
  have ha : ∀ id, r.checkDraft (.empty id) = .error (.missingOperation id) := fun _ => rfl
  have hs : r.normalize d = .ok s := by
    simp only [d, normalize, Rule.prune, Rule.pruneList, hf, ha]
    rfl
  have he : ¬ r.normalize e.toDraft = .ok e := fun h =>
    ((normalize_toDraft_fixed r e).1.1 h).1 (.group "h" .and false []) (.tail _ (.tail _ (.head _)))
      rfl rfl
  exact ⟨⟨hs, (normalize_toDraft_fixed r s).2.2 d hs⟩, he⟩

end Resolver

end RecordRules
