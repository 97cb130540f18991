import RecordRules.Proofs.Compilation
import RecordRules.Proofs.Rule.Rewriting

/-!
# Rewriting compiled rules

A group may be replaced by its dual anywhere in a rule: the result on a record stays the same, and
so does the failure, whatever is done about failures (`test_deMorgan`).  Where each filter of a rule
answers on its own, the result is the boolean formula of the rule, and the conditions of its groups
may be rearranged (`test_rearranged`).  Both hold of rules that are compiled, and of rules that are
compiled after they are rewritten.
-/

namespace RecordRules

namespace Predicate

variable {p p' : Predicate} {record : Value}

/-- The error policy sees no more of a rule than its outcome. -/
theorem test_congr (h : p.eval record = p'.eval record) (config : FilterConfig) :
    ({ p with config } : Predicate).test record = ({ p' with config } : Predicate).test record := by
  rw [test, test, eval_with p, eval_with p', h]

/-- Where a rule has a value, the settings for failures do not matter. -/
theorem test_eq_ok {b : Bool} (h : p.eval record = .ok b) (config : FilterConfig) :
    ({ p with config } : Predicate).test record = .ok b := by
  rw [test, eval_with p, h]

end Predicate

namespace BoundFilter

def inverted (f : BoundFilter) : BoundFilter := { f with invert := !f.invert }

/-- An inverted filter gives the other answer, or fails as before. -/
theorem test_inverted (record : Value) (f : BoundFilter) :
    f.inverted.test record = (f.test record).map (!·) := by
  have hanswer : f.inverted.answer record = f.answer record := rfl
  rw [test, test, hanswer]
  cases f.answer record with
  | error e => rfl
  | ok b => exact congrArg _ (Bool.bne_not b f.invert)

end BoundFilter

namespace Resolver

variable {r : Resolver} {s s' : Rule Filter} {record : Value}

/-- Inverting a filter does not change which operation it is bound to. -/
theorem bind_inverted (f : Filter) :
    r.bind f.inverted = (r.bind f).map BoundFilter.inverted := by
  unfold Resolver.bind
  simp only [Filter.inverted]
  cases r.resolve f.operation f.path <;> rfl

/-- A filter and its inverse fail alike, and otherwise have opposite results. -/
theorem test_bind_inverted (record : Value) (f : Filter) :
    (r.bind f.inverted >>= BoundFilter.test record) =
      (r.bind f >>= BoundFilter.test record).map (!·) := by
  rw [bind_inverted]
  cases r.bind f with
  | error e => rfl
  | ok b => exact BoundFilter.test_inverted record b

/-- Rules whose filters resolve alike fail to compile alike. -/
theorem compileFilter_eq_error_congr
    (h : s.leaves.map (fun f => r.resolve f.operation f.path) =
      s'.leaves.map fun f => r.resolve f.operation f.path) (e : EvalError) :
    r.compileFilter s = .error e ↔ r.compileFilter s' = .error e := by
  have hfirst : ∀ issue, FailsFirst (fun f => r.resolve f.operation f.path) s.leaves issue ↔
      FailsFirst (fun f => r.resolve f.operation f.path) s'.leaves issue := by
    intro issue
    rw [← failsFirst_map (f := fun o => o), h, failsFirst_map]
  simp only [compileFilter_eq_error_iff, hfirst]

/-- A comparison and a search of the ready-made registry, on the fields of a small schema. -/
theorem exists_greater_contains : ∃ (r : Resolver) (greater contains : StandardOperation),
    Registry.builtinFilters = .ok r.registry ∧
      r.schema = .record [("n", .int), ("name", .text)] ∧
      r.resolve "greater than" [.field "n"] = .ok greater ∧
      r.resolve "contains" [.field "name"] = .ok contains ∧ contains.name = "contains" ∧
      greater.run [.int 3, .int 5] = .ok (.bool false) ∧
      contains.run [.text "ab", .text "a"] = .ok (.bool true) ∧
      contains.run [.int 1, .text "a"] = .error (.unexpected "Text" (.int 1)) := by
  obtain ⟨⟨role, operations, index⟩, hregistry⟩ := Builtins.exists_registry
  obtain ⟨-, rfl, -⟩ := Registry.ofList_eq_ok hregistry
  have hgreater : Registry.get? ⟨.filter, operations, index⟩ "greater than" =
      some Builtins.greaterThan := Registry.get?_of_ofList hregistry (.tail _ (.head _))
  have hcontains : Registry.get? ⟨.filter, operations, index⟩ "contains" =
      some Builtins.contains :=
    Registry.get?_of_ofList hregistry (.tail _ (.tail _ (.tail _ (.head _))))
  exact ⟨⟨⟨.filter, operations, index⟩, .record [("n", .int), ("name", .text)], Ty.accepts⟩,
    _, _, hregistry, rfl,
    resolve_eq_ok_iff.2 ⟨_, .int, hgreater, rfl, rfl, if_pos (Ty.accepts_self _)⟩,
    resolve_eq_ok_iff.2 ⟨_, .text, hcontains, rfl, rfl, if_pos (Ty.accepts_self _)⟩,
    rfl, rfl, rfl, rfl⟩

/-- A group may be replaced by its dual: in a compiled rule, and in a rule before it is compiled. -/
theorem test_deMorgan (r : Resolver) :
    (∀ rule rule' : Rule BoundFilter, Rule.Within (Rule.Dual BoundFilter.inverted) rule rule' →
      ∀ config record, (⟨some rule', config⟩ : Predicate).test record =
        (⟨some rule, config⟩ : Predicate).test record) ∧
    ∀ s s' : Rule Filter, Rule.Within (Rule.Dual Filter.inverted) s s' →
      (∀ e, r.compileFilter s' = .error e ↔ r.compileFilter s = .error e) ∧
      ∀ p, r.compileFilter s = .ok p → ∃ p', r.compileFilter s' = .ok p' ∧
        ∀ config record, ({ p' with config } : Predicate).test record =
          ({ p with config } : Predicate).test record := by
  constructor
  · intro rule rule' h config record
    have heval : rule'.eval (BoundFilter.test record) = rule.eval (BoundFilter.test record) :=
      (h.dual_eval_eq (BoundFilter.test_inverted record)).symm
    exact @Predicate.test_congr ⟨some rule', config⟩ ⟨some rule, config⟩ record heval config
  · intro s s' h
    -- inverting a filter does not touch its operation and its path, so the same filters resolve
    have hresolve : ∀ f : Filter,
        r.resolve f.inverted.operation f.inverted.path = r.resolve f.operation f.path :=
      fun _ => rfl
    have herror := compileFilter_eq_error_congr (h.dual_leaves_eq hresolve).symm
    refine ⟨herror, fun p hp => ?_⟩
    cases hp' : r.compileFilter s' with
    | error e =>
      have hfailed := (herror e).1 hp'
      rw [hp] at hfailed
      cases hfailed
    | ok p' =>
      refine ⟨p', rfl, fun config record => Predicate.test_congr ?_ config⟩
      rw [eval_of_compileFilter hp', eval_of_compileFilter hp]
      exact (h.dual_eval_eq (test_bind_inverted record)).symm

/-- In the inner group the first condition is false, and so is the second, an empty group that is
inverted.  The third fails on one record and decides on the other. -/
theorem test_deMorgan_failing : ∃ (r : Resolver) (greater contains : StandardOperation)
    (s s' : Rule Filter) (rule rule' : Rule BoundFilter) (p' : Predicate) (failing decided : Value),
    Registry.builtinFilters = .ok r.registry ∧
      r.schema = .record [("n", .int), ("name", .text)] ∧
      s = .group "g" .and true [.group "h" .or false
        [.leaf ⟨"a", [.field "n"], "greater than", [.int 5], false⟩, .group "e" .and true [],
          .leaf ⟨"b", [.field "name"], "contains", [.text "a"], false⟩]] ∧
      s' = .group "g" .and true [.group "h" .and true
        [.leaf ⟨"a", [.field "n"], "greater than", [.int 5], true⟩, .group "e" .and false [],
          .leaf ⟨"b", [.field "name"], "contains", [.text "a"], true⟩]] ∧
      rule = .group "g" .and true [.group "h" .or false
        [.leaf ⟨"a", [.field "n"], greater, [.int 5], false⟩, .group "e" .and true [],
          .leaf ⟨"b", [.field "name"], contains, [.text "a"], false⟩]] ∧
      rule' = .group "g" .and true [.group "h" .and true
        [.leaf ⟨"a", [.field "n"], greater, [.int 5], true⟩, .group "e" .and false [],
          .leaf ⟨"b", [.field "name"], contains, [.text "a"], true⟩]] ∧
      failing = .recordOf [("n", .int 3), ("name", .int 1)] ∧
      decided = .recordOf [("n", .int 3), ("name", .text "ab")] ∧
      r.compileFilter s = .ok ⟨some rule, .default⟩ ∧ r.compileFilter s' = .ok p' ∧
      (∀ fallback, (⟨some rule', ⟨.propagate, fallback⟩⟩ : Predicate).test failing =
        .error (.operation "contains" "b" (.unexpected "Text" (.int 1)))) ∧
      (∀ fallback, ({ p' with config := ⟨.fallback, fallback⟩ } : Predicate).test failing =
        .ok fallback) ∧
      ∀ config, ({ p' with config } : Predicate).test decided = .ok false := by
  obtain ⟨r, greater, contains, hregistry, hschema, hgreater, hcontains, hname, hno, hyes,
    hfails⟩ := exists_greater_contains
  let s : Rule Filter := .group "g" .and true [.group "h" .or false
    [.leaf ⟨"a", [.field "n"], "greater than", [.int 5], false⟩, .group "e" .and true [],
      .leaf ⟨"b", [.field "name"], "contains", [.text "a"], false⟩]]
  let rule : Rule BoundFilter := .group "g" .and true [.group "h" .or false
    [.leaf ⟨"a", [.field "n"], greater, [.int 5], false⟩, .group "e" .and true [],
      .leaf ⟨"b", [.field "name"], contains, [.text "a"], false⟩]]
  let failing : Value := .recordOf [("n", .int 3), ("name", .int 1)]
  let decided : Value := .recordOf [("n", .int 3), ("name", .text "ab")]
  have hcompiled : r.compileFilter s = .ok ⟨some rule, .default⟩ := by
    simp only [s, compileFilter, Rule.traverse, Rule.traverseList, Resolver.bind, hgreater,
      hcontains]
    rfl
  obtain ⟨hbound, hrules⟩ := test_deMorgan r
  have hdual : Rule.Within (Rule.Dual BoundFilter.inverted) rule _ :=
    @Rule.Within.inside _ _ _ _ _ [] _ _ _ (.here (.dual (by simp)))
  have hdual' : Rule.Within (Rule.Dual Filter.inverted) s _ :=
    @Rule.Within.inside _ _ _ _ _ [] _ _ _ (.here (.dual (by simp)))
  obtain ⟨p', hp', hsame⟩ := (hrules s _ hdual').2 _ hcompiled
  have hfailing : rule.eval (BoundFilter.test failing) =
      .error (.operation "contains" "b" (.unexpected "Text" (.int 1))) := by
    have ha : BoundFilter.test failing ⟨"a", [.field "n"], greater, [.int 5], false⟩ =
        .ok false := BoundFilter.test_of_run (b := false) hno
    have hb : BoundFilter.test failing ⟨"b", [.field "name"], contains, [.text "a"], false⟩ =
        .error (.operation "contains" "b" (.unexpected "Text" (.int 1))) :=
      hname ▸ BoundFilter.test_of_run_error hfails
    simp only [rule, Rule.eval, Rule.evalAll, Rule.evalAny, ha, hb]
    rfl
  have hdecided : rule.eval (BoundFilter.test decided) = .ok false := by
    have ha : BoundFilter.test decided ⟨"a", [.field "n"], greater, [.int 5], false⟩ =
        .ok false := BoundFilter.test_of_run (b := false) hno
    have hb : BoundFilter.test decided ⟨"b", [.field "name"], contains, [.text "a"], false⟩ =
        .ok true := BoundFilter.test_of_run (b := true) hyes
    simp only [rule, Rule.eval, Rule.evalAll, Rule.evalAny, ha, hb]
    rfl
  refine ⟨r, greater, contains, s, _, rule, _, p', failing, decided, hregistry, hschema, rfl, rfl,
    rfl, rfl, rfl, rfl, hcompiled, hp', fun fallback => ?_, fun fallback => ?_, fun config => ?_⟩
  · refine (hbound rule _ hdual _ failing).trans ?_
    simp only [Predicate.test, Predicate.eval, hfailing]
  · rw [hsame]
    simp only [Predicate.test, Predicate.eval, hfailing]
  · rw [hsame]
    simp only [Predicate.test, Predicate.eval, hdecided]

/-- Where each filter answers on its own, a rule has the result of its formula, and any other with
the same conditions in its groups has it, in whatever order and number they come. -/
theorem test_rearranged (r : Resolver) (record : Value) :
    (∀ (rule : Rule BoundFilter) (v : BoundFilter → Bool),
      (∀ f ∈ rule.leaves, f.test record = .ok (v f)) → ∀ config,
      (⟨some rule, config⟩ : Predicate).test record = .ok (rule.truth v) ∧
      ∀ rule', rule.Rearranged rule' → (⟨some rule', config⟩ : Predicate).test record =
        (⟨some rule, config⟩ : Predicate).test record) ∧
    ∀ (s : Rule Filter) (v : Filter → Bool),
      (∀ f ∈ s.leaves, r.Answers record f (.ok (v f))) →
      ∃ p, r.compileFilter s = .ok p ∧
        (∀ config, ({ p with config } : Predicate).test record = .ok (s.truth v)) ∧
        ∀ s', s.Rearranged s' → ∃ p', r.compileFilter s' = .ok p' ∧
          ∀ config, ({ p' with config } : Predicate).test record =
            ({ p with config } : Predicate).test record := by
  constructor
  · intro rule v hv config
    have htest : ∀ rule', rule.Rearranged rule' →
        (⟨some rule', config⟩ : Predicate).test record = .ok (rule.truth v) := fun rule' h =>
      Predicate.test_eq_ok (p := ⟨some rule', config⟩) (h.eval_eq hv) config
    exact ⟨htest rule .refl, fun rule' h => (htest rule' h).trans (htest rule .refl).symm⟩
  · intro s v hv
    -- a rearranged rule has the same filters, so it compiles as well
    have htest : ∀ s', s.Rearranged s' → ∃ p', r.compileFilter s' = .ok p' ∧
        ∀ config, ({ p' with config } : Predicate).test record = .ok (s.truth v) := by
      intro s' h
      obtain ⟨p', hp'⟩ := exists_compileFilter_eq_ok_iff.2 fun f hf =>
        (hv f (h.mem_leaves_iff.2 hf)).resolves
      refine ⟨p', hp', Predicate.test_eq_ok ?_⟩
      rw [eval_of_compileFilter hp']
      exact h.eval_eq fun f hf => (hv f hf).test_eq
    obtain ⟨p, hp, hformula⟩ := htest s .refl
    refine ⟨p, hp, hformula, fun s' h => ?_⟩
    obtain ⟨p', hp', hsame⟩ := htest s' h
    exact ⟨p', hp', fun config => (hsame config).trans (hformula config).symm⟩

/-- The conditions change places at two levels, and one comes twice; the inner group has an empty
one among them. -/
theorem test_rearranged_nested : ∃ (r : Resolver) (greater contains : StandardOperation)
    (s s' : Rule Filter) (rule rule' : Rule BoundFilter) (p p' : Predicate) (record : Value),
    Registry.builtinFilters = .ok r.registry ∧
      r.schema = .record [("n", .int), ("name", .text)] ∧
      s = .group "g" .or true [.leaf ⟨"a", [.field "n"], "greater than", [.int 5], false⟩,
        .group "h" .and true [.group "e" .or false [],
          .leaf ⟨"b", [.field "name"], "contains", [.text "a"], false⟩]] ∧
      s' = .group "g" .or true [.group "h" .and true
        [.leaf ⟨"b", [.field "name"], "contains", [.text "a"], false⟩, .group "e" .or false [],
          .leaf ⟨"b", [.field "name"], "contains", [.text "a"], false⟩],
        .leaf ⟨"a", [.field "n"], "greater than", [.int 5], false⟩] ∧
      rule = .group "g" .or true [.leaf ⟨"a", [.field "n"], greater, [.int 5], false⟩,
        .leaf ⟨"b", [.field "name"], contains, [.text "a"], false⟩] ∧
      rule' = .group "g" .or true [.leaf ⟨"b", [.field "name"], contains, [.text "a"], false⟩,
        .leaf ⟨"a", [.field "n"], greater, [.int 5], false⟩] ∧
      record = .recordOf [("n", .int 3), ("name", .text "ab")] ∧
      r.compileFilter s = .ok p ∧ r.compileFilter s' = .ok p' ∧
      ∀ config, (⟨some rule', config⟩ : Predicate).test record = .ok false ∧
        ({ p with config } : Predicate).test record = .ok true ∧
        ({ p' with config } : Predicate).test record = .ok true := by
  obtain ⟨r, greater, contains, hregistry, hschema, hgreater, hcontains, -, hno, hyes, -⟩ :=
    exists_greater_contains
  let a : Filter := ⟨"a", [.field "n"], "greater than", [.int 5], false⟩
  let b : Filter := ⟨"b", [.field "name"], "contains", [.text "a"], false⟩
  let e : Rule Filter := .group "e" .or false []
  let ba : BoundFilter := ⟨"a", [.field "n"], greater, [.int 5], false⟩
  let bb : BoundFilter := ⟨"b", [.field "name"], contains, [.text "a"], false⟩
  let record : Value := .recordOf [("n", .int 3), ("name", .text "ab")]
  obtain ⟨hbound, hrules⟩ := test_rearranged r record
  let s : Rule Filter := .group "g" .or true [.leaf a, .group "h" .and true [e, .leaf b]]
  let rule : Rule BoundFilter := .group "g" .or true [.leaf ba, .leaf bb]
  have hvalues : ∀ f ∈ rule.leaves, f.test record = .ok (f.id == "b") :=
    List.forall_mem_cons.2 ⟨BoundFilter.test_of_run (f := ba) (b := false) hno,
      List.forall_mem_singleton.2 (BoundFilter.test_of_run (f := bb) (b := true) hyes)⟩
  have hanswers : ∀ f ∈ s.leaves, r.Answers record f (.ok (f.id == "b")) :=
    List.forall_mem_cons.2 ⟨.answer (f := a) (b := false) hgreater hno,
      List.forall_mem_singleton.2 (.answer (f := b) (b := true) hcontains hyes)⟩
  have hswapped : rule.Rearranged (.group "g" .or true [.leaf bb, .leaf ba]) :=
    .single (.here (.permuted (.swap _ _ [])))
  have hrepeated : Rule.Within Rule.Rearranges s
      (.group "g" .or true [.leaf a, .group "h" .and true [.leaf b, e, .leaf b]]) :=
    @Rule.Within.inside _ _ _ _ _ [.leaf a] _ _ _ (.here (.repeated (.tail _ (.head _))))
  obtain ⟨p, hp, hformula, hsame⟩ := hrules _ _ hanswers
  obtain ⟨p', hp', htest⟩ := hsame _
    (.tail (.single hrepeated) (.here (.permuted (.swap _ _ []))))
  exact ⟨r, greater, contains, _, _, _, _, p, p', record, hregistry, hschema, rfl, rfl, rfl, rfl,
    rfl, hp, hp', fun config => ⟨((hbound _ _ hvalues config).2 _ hswapped).trans
      (hbound _ _ hvalues config).1, hformula config, (htest config).trans (hformula config)⟩⟩

end Resolver

end RecordRules
