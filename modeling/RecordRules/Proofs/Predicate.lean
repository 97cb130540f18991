import RecordRules.Proofs.Builtins
import RecordRules.Proofs.Registry

/-!
# Ready-made predicates do not fail

A normalized rule over the ready-made predicates compiles, and has a result on every record of
its schema (`exists_test_eq_ok`).  Unions in the schema have to stand for optional parts, so that
all values of a part compare, and the path of `contains` has to be direct, so that it leads to
text and not to `null`.
-/

namespace RecordRules.Resolver

/-- A resolver of ready-made predicates on records of a schema whose unions stand for optional
parts. -/
structure Ready (r : Resolver) : Prop where
  registry : Registry.builtinFilters = .ok r.registry
  oracle : r.oracle = Ty.accepts
  unions : r.schema.unionsProper = true

variable {r : Resolver} {f : Filter} {record : Value}

/-- The operation of a filter answers on every record. -/
theorem Ready.exists_answer (h : r.Ready) {op : StandardOperation}
    (hop : r.resolve f.operation f.path = .ok op)
    (harguments : checkArguments op f.arguments = .ok ())
    (hcontains : f.operation = "contains" → r.schema.Direct f.path)
    (hrecord : r.schema.admits record = true) :
    ∃ b, op.run (record.atPath f.path :: f.arguments) = .ok (.bool b) := by
  obtain ⟨found, t, hfound, ht, hinstance, hfirst⟩ := resolve_eq_ok_iff.1 hop
  obtain ⟨hindexed, -, hoperations⟩ := Registry.ofList_eq_ok h.registry
  obtain ⟨hmem, hname⟩ := hindexed.get?_eq_some hfound
  rw [hoperations] at hmem
  refine Builtins.exists_answer h.oracle hmem hinstance hfirst harguments
    (Ty.unionsProper_atPath h.unions ht) (Ty.null_or_admits_atPath ht hrecord) fun heq => ?_
  exact (hcontains (hname.symm.trans heq)).admits_atPath ht hrecord

/-- A bound filter has a result where its operation answers with a boolean. -/
theorem exists_test_of_run {b : BoundFilter}
    (h : ∃ a, b.operation.run (record.atPath b.path :: b.arguments) = .ok (.bool a)) :
    ∃ a, b.test record = .ok a := by
  obtain ⟨a, ha⟩ := h
  exact ⟨a != b.invert, BoundFilter.test_of_run ha⟩

/-- A filter that resolves has a result on every record of the schema. -/
theorem Ready.exists_test (h : r.Ready) (hf : r.Resolves f)
    (hcontains : f.operation = "contains" → r.schema.Direct f.path)
    (hrecord : r.schema.admits record = true) {b : BoundFilter} (hb : r.bind f = .ok b) :
    ∃ a, b.test record = .ok a := by
  obtain ⟨op, hop, harguments⟩ := hf
  obtain ⟨op', hop', rfl⟩ := bind_eq_ok_iff.1 hb
  obtain rfl : op = op' := Except.ok.inj (hop.symm.trans hop')
  exact exists_test_of_run (h.exists_answer hop harguments hcontains hrecord)

/-- A normalized rule over the ready-made predicates compiles, and has a result on every record
of the schema that does not depend on what is done about failures. -/
theorem exists_test_eq_ok (h : r.Ready) {d : Rule Draft} {s : Rule Filter}
    (hs : r.normalize d = .ok s)
    (hcontains : ∀ f ∈ s.leaves, f.operation = "contains" → r.schema.Direct f.path) :
    ∃ p, r.compileFilter s = .ok p ∧ ∀ record, r.schema.admits record = true →
      ∃ b, ∀ config, ({ p with config } : Predicate).test record = .ok b := by
  obtain ⟨bound, hbound, hmade⟩ :=
    exists_compileFilter_eq_ok fun f hf => resolves_of_normalize hs hf
  refine ⟨_, hbound, fun record hrecord => ?_⟩
  -- where no filter fails, no policy for failures is asked
  have heval : ∃ b, bound.eval (BoundFilter.test record) = .ok b := by
    apply Rule.exists_eval_eq_ok
    intro b hb
    obtain ⟨f, hf, hfb⟩ := hmade b hb
    exact h.exists_test (resolves_of_normalize hs hf) (hcontains f hf) hrecord hfb
  obtain ⟨b, hb⟩ := heval
  refine ⟨b, fun config => ?_⟩
  simp only [Predicate.test, Predicate.eval, hb]

/-- A number that is missing, as it may be, and a text. -/
theorem exists_test_eq_ok_missing : ∃ (r : Resolver) (s : Rule Filter) (p : Predicate),
    r.Ready ∧ r.schema = .record [("n", .optional .int), ("name", .text)] ∧
      s = .group "g" .or false [.leaf ⟨"a", [.field "n"], "greater than", [.int 5], false⟩,
        .leaf ⟨"b", [.field "name"], "contains", [.text "a"], false⟩] ∧
      r.normalize s.toDraft = .ok s ∧ r.compileFilter s = .ok p ∧
      ∃ b, ∀ config, ({ p with config } : Predicate).test (.recordOf [("name", .text "ab")]) =
        .ok b := by
  obtain ⟨⟨role, operations, index⟩, hregistry⟩ := Builtins.exists_registry
  obtain ⟨hindexed, rfl, hoperations⟩ := Registry.ofList_eq_ok hregistry
  have hget : ∀ (i : Nat) op, Builtins.filters[i]? = some op →
      Registry.get? ⟨.filter, operations, index⟩ op.name = some op := by
    intro i op hop
    apply hindexed.get?_of_getElem? (i := i)
    rw [← Array.getElem?_toList, hoperations, hop]
  let r : Resolver := ⟨⟨.filter, operations, index⟩,
    .record [("n", .optional .int), ("name", .text)], Ty.accepts⟩
  have hready : r.Ready := ⟨hregistry, rfl, rfl⟩
  have hgreater : r.Resolves ⟨"a", [.field "n"], "greater than", [.int 5], false⟩ := by
    refine ⟨_, resolve_eq_ok_iff.2
      ⟨Builtins.greaterThan, .optional .int, hget 1 _ rfl, rfl, rfl, ?_⟩, ?_⟩
    · exact if_pos (Ty.accepts_self _)
    · rfl
  have hcontains : r.Resolves ⟨"b", [.field "name"], "contains", [.text "a"], false⟩ := by
    refine ⟨_, resolve_eq_ok_iff.2 ⟨Builtins.contains, .text, hget 3 _ rfl, rfl, rfl, ?_⟩, ?_⟩
    · exact if_pos (Ty.accepts_self _)
    · rfl
  have hs : r.normalize (.group "g" .or false
      [.leaf ⟨"a", some [.field "n"], some "greater than", [.int 5], some false⟩,
        .leaf ⟨"b", some [.field "name"], some "contains", [.text "a"], some false⟩]) =
      .ok (.group "g" .or false [.leaf ⟨"a", [.field "n"], "greater than", [.int 5], false⟩,
        .leaf ⟨"b", [.field "name"], "contains", [.text "a"], false⟩]) := by
    have ha := checkDraft_toDraft hgreater
    have hb := checkDraft_toDraft hcontains
    simp only [Filter.toDraft] at ha hb
    simp only [normalize, Rule.prune, Rule.pruneList, ha, hb]
    rfl
  have hdirect : ∀ n, r.schema.Direct [.field n] := by
    intro n
    rw [Ty.direct_cons_iff]
    exact ⟨⟨rfl, by simp [r, Ty.isList]⟩, fun u _ => u.direct_nil⟩
  obtain ⟨p, hp, htest⟩ := exists_test_eq_ok hready hs fun f hf _ => by
    obtain ⟨c, hc, hf⟩ := Rule.mem_leaves_group.1 hf
    simp only [List.mem_cons, List.not_mem_nil, or_false] at hc
    rcases hc with rfl | rfl
    · rw [Rule.mem_leaves_leaf.1 hf]
      exact hdirect "n"
    · rw [Rule.mem_leaves_leaf.1 hf]
      exact hdirect "name"
  exact ⟨r, _, p, hready, rfl, rfl, hs, hp, htest _ rfl⟩

end RecordRules.Resolver
