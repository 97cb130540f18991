import RecordRules.Proofs.Builtins
import RecordRules.Proofs.Registry
import RecordRules.Proofs.Rule.Reading

/-!
# What compiled rules mean

A rule compiles unless one of its filters does not resolve, and fails with the issue of the first
that does not.  On a record the compiled rule has the outcome that is read off the rule, where
each filter answers on its own (`compileFilter_means`).
-/

namespace RecordRules.Predicate

/-! ## Policies -/

/-- What is done about failures does not bear on the outcome. -/
theorem eval_with (p : Predicate) (config : FilterConfig) (record : Value) :
    ({ p with config } : Predicate).eval record = p.eval record := rfl

/-- Failures are passed on. -/
theorem test_propagate (p : Predicate) (fallback : Bool) (record : Value) :
    ({ p with config := ⟨.propagate, fallback⟩ } : Predicate).test record = p.eval record := by
  rw [test, eval_with p]
  cases p.eval record <;> rfl

/-- A failure of the whole rule gives way to the fallback. -/
theorem test_fallback (p : Predicate) (fallback : Bool) (record : Value) :
    ({ p with config := ⟨.fallback, fallback⟩ } : Predicate).test record =
      .ok ((p.eval record).toOption.getD fallback) := by
  rw [test, eval_with p]
  cases p.eval record <;> rfl

end RecordRules.Predicate

namespace RecordRules.Resolver

/-- What a filter answers on a record, if its operation resolves.  Only an answer is inverted. -/
inductive Answers (r : Resolver) (record : Value) (f : Filter) : Except EvalError Bool → Prop where
  | answer {op : StandardOperation} {b : Bool} :
      r.resolve f.operation f.path = .ok op →
      op.run (record.atPath f.path :: f.arguments) = .ok (.bool b) →
      Answers r record f (.ok (b != f.invert))
  | notABoolean {op : StandardOperation} {v : Value} :
      r.resolve f.operation f.path = .ok op →
      op.run (record.atPath f.path :: f.arguments) = .ok v → (∀ b, v ≠ .bool b) →
      Answers r record f (.error (.notABoolean op.name f.id v.kindName))
  | failed {op : StandardOperation} {cause : OperationError} :
      r.resolve f.operation f.path = .ok op →
      op.run (record.atPath f.path :: f.arguments) = .error cause →
      Answers r record f (.error (.operation op.name f.id cause))

variable {r : Resolver} {f : Filter} {s : Rule Filter} {record : Value}

/-! ## Filters -/

/-- A filter that cannot be bound has an operation that does not resolve. -/
theorem bind_eq_error_iff {e : EvalError} : r.bind f = .error e ↔
    ∃ issue, e = .unresolved issue ∧ r.resolve f.operation f.path = .error issue := by
  unfold Resolver.bind
  cases r.resolve f.operation f.path <;> simp [eq_comm]

/-- A filter can be bound when its operation resolves. -/
theorem exists_bind_eq_ok_iff :
    (∃ b, r.bind f = .ok b) ↔ ∃ op, r.resolve f.operation f.path = .ok op := by
  simp only [bind_eq_ok_iff]
  constructor
  · rintro ⟨_, op, hop, -⟩
    exact ⟨op, hop⟩
  · rintro ⟨op, hop⟩
    exact ⟨_, op, hop, rfl⟩

/-- A filter that resolves answers. -/
theorem exists_answers (h : ∃ op, r.resolve f.operation f.path = .ok op) (record : Value) :
    ∃ o, r.Answers record f o := by
  obtain ⟨op, hop⟩ := h
  cases hrun : op.run (record.atPath f.path :: f.arguments) with
  | error cause => exact ⟨_, .failed hop hrun⟩
  | ok v =>
    by_cases hv : ∃ b, v = .bool b
    · obtain ⟨b, rfl⟩ := hv
      exact ⟨_, .answer hop hrun⟩
    · exact ⟨_, .notABoolean hop hrun fun b hb => hv ⟨b, hb⟩⟩

/-- Only a filter whose operation resolves answers. -/
theorem Answers.resolves {o : Except EvalError Bool} (h : r.Answers record f o) :
    ∃ op, r.resolve f.operation f.path = .ok op := by
  cases h with
  | answer hop _ => exact ⟨_, hop⟩
  | notABoolean hop _ _ => exact ⟨_, hop⟩
  | failed hop _ => exact ⟨_, hop⟩

/-- The bound filter answers as the relation says. -/
theorem Answers.test_eq {o : Except EvalError Bool} (h : r.Answers record f o) :
    (r.bind f >>= BoundFilter.test record) = o := by
  have hbind : ∀ {op}, r.resolve f.operation f.path = .ok op →
      (r.bind f >>= BoundFilter.test record) =
        BoundFilter.test record ⟨f.id, f.path, op, f.arguments, f.invert⟩ := by
    intro op hop
    rw [bind_eq_ok_iff.2 ⟨op, hop, rfl⟩]
    rfl
  cases h with
  | answer hop hrun =>
    rw [hbind hop]
    exact BoundFilter.test_of_run hrun
  | @notABoolean op v hop hrun hv =>
    have hanswer : BoundFilter.answer ⟨f.id, f.path, op, f.arguments, f.invert⟩ record =
        .error (.notABoolean op.name f.id v.kindName) := by
      rw [BoundFilter.answer, hrun]
      cases v with
      | bool b => exact absurd rfl (hv b)
      | _ => rfl
    rw [hbind hop, BoundFilter.test, hanswer]
    rfl
  | failed hop hrun =>
    rw [hbind hop]
    exact BoundFilter.test_of_run_error hrun

/-! ## Rules -/

/-- The first filter that cannot be bound is the first that does not resolve. -/
theorem failsFirst_bind_iff {fs : List Filter} {e : EvalError} : FailsFirst r.bind fs e ↔
    ∃ issue, e = .unresolved issue ∧
      FailsFirst (fun f => r.resolve f.operation f.path) fs issue := by
  simp only [FailsFirst, exists_bind_eq_ok_iff, bind_eq_error_iff]
  constructor
  · rintro ⟨before, f, after, hfs, hbefore, issue, he, hf⟩
    exact ⟨issue, he, before, f, after, hfs, hbefore, hf⟩
  · rintro ⟨issue, he, before, f, after, hfs, hbefore, hf⟩
    exact ⟨before, f, after, hfs, hbefore, issue, he, hf⟩

/-- A rule fails to compile with the issue of the first filter that does not resolve. -/
theorem compileFilter_eq_error_iff {e : EvalError} : r.compileFilter s = .error e ↔
    ∃ issue, e = .unresolved issue ∧
      FailsFirst (fun f => r.resolve f.operation f.path) s.leaves issue := by
  rw [compileFilter, map_eq_error_iff, Rule.traverse_eq_error_iff, failsFirst_bind_iff]

/-- A rule compiles when all its filters resolve. -/
theorem exists_compileFilter_eq_ok_iff : (∃ p, r.compileFilter s = .ok p) ↔
    ∀ f ∈ s.leaves, ∃ op, r.resolve f.operation f.path = .ok op := by
  simp only [compileFilter, map_eq_ok_iff, ← exists_bind_eq_ok_iff,
    ← Rule.exists_traverse_eq_ok_iff]
  constructor
  · rintro ⟨_, b, hb, -⟩
    exact ⟨b, hb⟩
  · rintro ⟨b, hb⟩
    exact ⟨_, b, hb, rfl⟩

/-- A rule does not compile when one of its filters does not resolve. -/
theorem exists_compileFilter_eq_error_iff : (∃ e, r.compileFilter s = .error e) ↔
    ∃ f ∈ s.leaves, ∃ issue, r.resolve f.operation f.path = .error issue := by
  simp only [exists_eq_error_iff, ← Bool.not_eq_true, isOk_iff, exists_compileFilter_eq_ok_iff]
  simp only [not_forall, exists_prop]

/-- A compiled rule has the outcome of the rule. -/
theorem eval_of_compileFilter {p : Predicate} (h : r.compileFilter s = .ok p) (record : Value) :
    p.eval record = s.eval fun f => r.bind f >>= BoundFilter.test record := by
  obtain ⟨bound, hbound, rfl⟩ := map_eq_ok_iff.1 h
  exact Rule.eval_of_traverse hbound

/-- So it has under the policy that passes on failures. -/
theorem test_of_compileFilter {p : Predicate} (h : r.compileFilter s = .ok p) (record : Value)
    (fallback : Bool) : ({ p with config := ⟨.propagate, fallback⟩ } : Predicate).test record =
      s.eval fun f => r.bind f >>= BoundFilter.test record := by
  rw [Predicate.test_propagate, eval_of_compileFilter h]

/-- A rule compiles if all its filters resolve, and otherwise fails like the first that does not.
A compiled rule that passes on its failures has the outcome that is read off the rule; so any other
rules that resolve may stand behind a condition that decides its group. -/
theorem compileFilter_means (r : Resolver) (s : Rule Filter) :
    ((∃ e, r.compileFilter s = .error e) ↔
      ∃ f ∈ s.leaves, ∃ issue, r.resolve f.operation f.path = .error issue) ∧
    (∀ e, r.compileFilter s = .error e ↔ ∃ issue, e = .unresolved issue ∧
      FailsFirst (fun f => r.resolve f.operation f.path) s.leaves issue) ∧
    ∀ p, r.compileFilter s = .ok p → ∀ record fallback,
      (∀ o, ({ p with config := ⟨.propagate, fallback⟩ } : Predicate).test record = o ↔
        s.Outcome (r.Answers record) o) ∧
      ∀ s', s.DiffersBehind (r.Answers record) s' →
        (∀ f ∈ s'.leaves, ∃ op, r.resolve f.operation f.path = .ok op) →
        ∃ p', r.compileFilter s' = .ok p' ∧
          ({ p' with config := ⟨.propagate, fallback⟩ } : Predicate).test record =
            ({ p with config := ⟨.propagate, fallback⟩ } : Predicate).test record := by
  have htest : ∀ record f o, r.Answers record f o →
      (r.bind f >>= BoundFilter.test record) = o := fun _ _ _ h => h.test_eq
  refine ⟨exists_compileFilter_eq_error_iff, fun e => compileFilter_eq_error_iff,
    fun p hp record fallback => ⟨?_, ?_⟩⟩
  · -- a filter answers once its operation resolves, so the outcome is defined for all of them
    have hresolves := exists_compileFilter_eq_ok_iff.1 ⟨p, hp⟩
    intro o
    rw [test_of_compileFilter hp]
    exact Rule.eval_eq_iff (htest record) fun f hf => exists_answers (hresolves f hf) record
  · intro s' hs' hresolves
    obtain ⟨p', hp'⟩ := exists_compileFilter_eq_ok_iff.2 hresolves
    refine ⟨p', hp', ?_⟩
    rw [test_of_compileFilter hp', test_of_compileFilter hp, hs'.eval_eq (htest record)]

/-- The second condition fails on both records.  The first one decides on one of them, and there
the second may as well be left out. -/
theorem compileFilter_means_hidden :
    ∃ (r : Resolver) (s s' : Rule Filter) (p p' : Predicate) (decided asked : Value),
      Registry.builtinFilters = .ok r.registry ∧
      r.schema = .record [("n", .int), ("name", .text)] ∧
      s = .group "g" .or true [.leaf ⟨"a", [.field "n"], "greater than", [.int 5], false⟩,
        .leaf ⟨"b", [.field "name"], "contains", [.text "a"], false⟩] ∧
      s' = .group "g" .or true [.leaf ⟨"a", [.field "n"], "greater than", [.int 5], false⟩] ∧
      decided = .recordOf [("n", .int 7), ("name", .int 1)] ∧
      asked = .recordOf [("n", .int 3), ("name", .int 1)] ∧
      r.compileFilter s = .ok p ∧ r.compileFilter s' = .ok p' ∧
      ({ p with config := ⟨.propagate, false⟩ } : Predicate).test decided = .ok false ∧
      ({ p with config := ⟨.propagate, false⟩ } : Predicate).test asked =
        .error (.operation "contains" "b" (.unexpected "Text" (.int 1))) ∧
      ({ p' with config := ⟨.propagate, false⟩ } : Predicate).test decided = .ok false := by
  obtain ⟨⟨role, operations, index⟩, hregistry⟩ := Builtins.exists_registry
  obtain ⟨-, rfl, -⟩ := Registry.ofList_eq_ok hregistry
  have hmemgreater : Builtins.greaterThan ∈ Builtins.filters := .tail _ (.head _)
  have hmemcontains : Builtins.contains ∈ Builtins.filters :=
    .tail _ (.tail _ (.tail _ (.head _)))
  have hgreater : Registry.get? ⟨.filter, operations, index⟩ "greater than" =
      some Builtins.greaterThan := Registry.get?_of_ofList hregistry hmemgreater
  have hcontains : Registry.get? ⟨.filter, operations, index⟩ "contains" =
      some Builtins.contains := Registry.get?_of_ofList hregistry hmemcontains
  let r : Resolver :=
    ⟨⟨.filter, operations, index⟩, .record [("n", .int), ("name", .text)], Ty.accepts⟩
  let a : Filter := ⟨"a", [.field "n"], "greater than", [.int 5], false⟩
  let b : Filter := ⟨"b", [.field "name"], "contains", [.text "a"], false⟩
  let decided : Value := .recordOf [("n", .int 7), ("name", .int 1)]
  let asked : Value := .recordOf [("n", .int 3), ("name", .int 1)]
  obtain ⟨opa, hopa, hpasses, hfails⟩ : ∃ op, r.resolve a.operation a.path = .ok op ∧
      op.run (decided.atPath a.path :: a.arguments) = .ok (.bool true) ∧
      op.run (asked.atPath a.path :: a.arguments) = .ok (.bool false) :=
    ⟨_, resolve_eq_ok_iff.2 ⟨_, .int, hgreater, rfl, rfl, if_pos (Ty.accepts_self _)⟩, rfl, rfl⟩
  obtain ⟨opb, hopb, hname, hrun⟩ : ∃ op, r.resolve b.operation b.path = .ok op ∧
      op.name = "contains" ∧
      op.run (asked.atPath b.path :: b.arguments) = .error (.unexpected "Text" (.int 1)) :=
    ⟨_, resolve_eq_ok_iff.2 ⟨_, .text, hcontains, rfl, rfl, if_pos (Ty.accepts_self _)⟩, rfl, rfl⟩
  have hyes : r.Answers decided a (.ok true) := .answer hopa hpasses
  have hno : r.Answers asked a (.ok false) := .answer hopa hfails
  have herror : r.Answers asked b
      (.error (.operation "contains" "b" (.unexpected "Text" (.int 1)))) :=
    hname ▸ .failed hopb hrun
  let s : Rule Filter := .group "g" .or true [.leaf a, .leaf b]
  let s' : Rule Filter := .group "g" .or true [.leaf a]
  have hresolves : ∀ f ∈ s.leaves, ∃ op, r.resolve f.operation f.path = .ok op :=
    List.forall_mem_cons.2 ⟨⟨opa, hopa⟩, List.forall_mem_singleton.2 ⟨opb, hopb⟩⟩
  have hresolves' : ∀ f ∈ s'.leaves, ∃ op, r.resolve f.operation f.path = .ok op :=
    List.forall_mem_singleton.2 ⟨opa, hopa⟩
  have hhidden : s.DiffersBehind (r.Answers decided) s' :=
    @Rule.DiffersBehind.behind _ _ _ "g" .or true [] [.leaf b] [] _ _ (by simp) (.leaf hyes)
      (by simp [Connective.neutral])
  have hdecided : s.Outcome (r.Answers decided) (.ok false) :=
    @Rule.Outcome.decided _ _ _ "g" .or true [] [.leaf b] _ _ (by simp) (.leaf hyes)
      (by simp [Connective.neutral])
  have hasked : s.Outcome (r.Answers asked)
      (.error (.operation "contains" "b" (.unexpected "Text" (.int 1)))) :=
    @Rule.Outcome.decided _ _ _ "g" .or true [.leaf a] [] _ _
      (List.forall_mem_singleton.2 (.leaf hno)) (.leaf herror) (by simp)
  obtain ⟨p, hp⟩ := exists_compileFilter_eq_ok_iff.2 hresolves
  obtain ⟨-, -, htest⟩ := compileFilter_means r s
  have hresult := ((htest p hp decided false).1 _).2 hdecided
  obtain ⟨p', hp', hsame⟩ := (htest p hp decided false).2 s' hhidden hresolves'
  exact ⟨r, s, s', p, p', decided, asked, hregistry, rfl, rfl, rfl, rfl, rfl, hp, hp', hresult,
    ((htest p hp asked false).1 _).2 hasked, hsame.trans hresult⟩

end RecordRules.Resolver
