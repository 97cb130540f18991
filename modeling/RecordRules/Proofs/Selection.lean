import RecordRules.Dataset
import RecordRules.Proofs.Compilation.Rewriting

/-!
# What a rule selects

A rule selects the records with a true result, in their order.  What is done about failures is
decided for each record by the outcome of the whole rule: the first failure ends the selection, or
each record with one is kept or dropped as the settings say (`filterData_exact`).

Where failures end the selection, a group of rules that have to hold together may be taken apart
into stages that select one after the other (`filterData_stages`).  A stage only has the records
that the stages before it left, and these are the ones on which the group comes to its rule.  The
stages ask in another order, so where both fail the failure may be another one.
-/

namespace RecordRules

variable {α ε : Type}

/-! ## Outcomes -/

/-- An outcome with a fallback is true when it is, or when it failed and the fallback is true. -/
theorem toOption_getD_iff {o : Except ε Bool} {fallback : Bool} :
    o.toOption.getD fallback = true ↔ o = .ok true ∨ fallback = true ∧ ∃ e, o = .error e := by
  cases o with
  | error e => simp [Except.toOption]
  | ok b => simp [Except.toOption]

/-- A result that is true. -/
def accepted (o : Except ε Bool) : Bool := o.toOption.getD false

/-- An outcome is accepted when it is `true`, but not when it failed. -/
theorem accepted_iff {o : Except ε Bool} : accepted o = true ↔ o = .ok true := by
  rw [accepted, toOption_getD_iff]
  simp

/-- The second outcome counts if the first is true. -/
def andThen (o o' : Except ε Bool) : Except ε Bool := do if ← o then o' else return false

section

variable {o o' : Except ε Bool}

/-- Two outcomes in turn have a value when the first has one and, if that is true, the second. -/
theorem exists_andThen_eq_ok_iff : (∃ b, andThen o o' = .ok b) ↔
    (∃ b, o = .ok b) ∧ (o = .ok true → ∃ b, o' = .ok b) := by
  cases o with
  | error e => simp [andThen, bind, Except.bind]
  | ok b => cases b <;> simp [andThen, bind, Except.bind, pure, Except.pure]

/-- Two outcomes in turn are true when both of them are. -/
theorem andThen_eq_ok_true_iff : andThen o o' = .ok true ↔ o = .ok true ∧ o' = .ok true := by
  cases o with
  | error e => simp [andThen, bind, Except.bind]
  | ok b => cases b <;> simp [andThen, bind, Except.bind, pure, Except.pure]

/-- Two outcomes in turn are accepted when both of them are. -/
theorem accepted_andThen : accepted (andThen o o') = (accepted o && accepted o') := by
  rw [Bool.eq_iff_iff, Bool.and_eq_true, accepted_iff, accepted_iff, accepted_iff]
  exact andThen_eq_ok_true_iff

end

/-! ## Lists -/

/-- `kept` has the elements of `l` with the property, in their order and as often. -/
def KeepsExactly (P : α → Prop) (l kept : List α) : Prop :=
  ∃ keep : α → Bool, (∀ a, keep a = true ↔ P a) ∧ kept = l.filter keep

/-- Two outcomes one after the other on a list are two passes over it; the second pass only has
what the first one left. -/
theorem forall_exists_andThen_eq_ok_iff {t u : α → Except ε Bool} {l : List α} :
    (∀ a ∈ l, ∃ b, andThen (t a) (u a) = .ok b) ↔
      (∀ a ∈ l, ∃ b, t a = .ok b) ∧
        ∀ a ∈ l.filter fun a => accepted (t a), ∃ b, u a = .ok b := by
  simp only [exists_andThen_eq_ok_iff, List.mem_filter, accepted_iff]
  constructor
  · intro h
    exact ⟨fun a ha => (h a ha).1, fun a ha => (h a ha.1).2 ha.2⟩
  · rintro ⟨ht, hu⟩ a ha
    exact ⟨ht a ha, fun haccepted => hu a ⟨ha, haccepted⟩⟩

/-- Keeping by two outcomes in turn is keeping by the first and then by the second. -/
theorem filter_accepted_andThen (t u : α → Except ε Bool) (l : List α) :
    (l.filter fun a => accepted (andThen (t a) (u a))) =
      (l.filter fun a => accepted (t a)).filter fun a => accepted (u a) := by
  rw [List.filter_filter]
  refine List.filter_congr fun a _ => ?_
  rw [accepted_andThen, Bool.and_comm]

/-! ## Selecting with a predicate -/

namespace Predicate

variable {p : Predicate} {record : Value} {records rest kept : List Value} {e : EvalError}

/-- A record with a result is kept or not, and the selection goes on. -/
theorem select_cons_of_ok {b : Bool} (h : p.test record = .ok b) :
    p.select (record :: rest) =
      (p.select rest).map fun kept => if b then record :: kept else kept := by
  rw [select, h]
  cases b <;> cases p.select rest <;> rfl

/-- The first failure ends the selection. -/
theorem select_cons_of_error (h : p.test record = .error e) :
    p.select (record :: rest) = .error e := by
  rw [select, h]
  rfl

/-- A selection succeeds when every record has a result, and keeps those whose result is true. -/
theorem select_eq_ok_iff : p.select records = .ok kept ↔
    (∀ record ∈ records, ∃ b, p.test record = .ok b) ∧
      kept = records.filter fun record => accepted (p.test record) := by
  induction records generalizing kept with
  | nil => simp [select, eq_comm]
  | cons record rest ih =>
    rw [List.forall_mem_cons]
    cases h : p.test record with
    | error e => simp [select_cons_of_error h]
    | ok b =>
      have haccepted : accepted (Except.ok b : Except EvalError Bool) = b := rfl
      rw [select_cons_of_ok h, map_eq_ok_iff, List.filter_cons, h, haccepted]
      simp only [ih]
      constructor
      · rintro ⟨_, ⟨hrest, rfl⟩, rfl⟩
        exact ⟨⟨⟨b, rfl⟩, hrest⟩, rfl⟩
      · rintro ⟨⟨-, hrest⟩, rfl⟩
        exact ⟨_, ⟨hrest, rfl⟩, rfl⟩

/-- A selection fails with what the first record to fail fails with. -/
theorem select_eq_error_iff : p.select records = .error e ↔ FailsFirst p.test records e := by
  induction records with
  | nil => simp [select]
  | cons record rest ih =>
    rw [failsFirst_cons]
    cases h : p.test record with
    | error e' => simp [select_cons_of_error h]
    | ok b => simp [select_cons_of_ok h, map_eq_error_iff, ih]

/-- With a fallback there is a result for every record. -/
theorem select_fallback (p : Predicate) (fallback : Bool) (records : List Value) :
    ({ p with config := ⟨.fallback, fallback⟩ } : Predicate).select records =
      .ok (records.filter fun record => (p.eval record).toOption.getD fallback) := by
  rw [select_eq_ok_iff]
  refine ⟨fun record _ => ⟨_, test_fallback p fallback record⟩, ?_⟩
  refine List.filter_congr fun record _ => ?_
  rw [test_fallback]
  rfl

/-- A predicate that is always true keeps all records. -/
theorem select_eq_self (h : ∀ record, p.test record = .ok true) (records : List Value) :
    p.select records = .ok records := by
  rw [select_eq_ok_iff]
  refine ⟨fun record _ => ⟨true, h record⟩, ?_⟩
  rw [List.filter_eq_self.2 fun record _ => accepted_iff.2 (h record)]

end Predicate

/-! ## Selecting with a rule -/

namespace Resolver

variable {r : Resolver} {s : Rule Filter} {rest : List (Rule Filter)} {id : String}
  {config : FilterConfig} {fallback : Bool} {record : Value} {records kept : List Value}

/-- What a rule comes to on a record when failures are passed on. -/
def outcome (r : Resolver) (s : Rule Filter) (record : Value) : Except EvalError Bool :=
  s.eval fun f => r.bind f >>= BoundFilter.test record

/-- The outcome of a rule whose filters resolve is the one read off it. -/
theorem outcome_eq_iff (h : ∀ f ∈ s.leaves, ∃ op, r.resolve f.operation f.path = .ok op)
    {o : Except EvalError Bool} : r.outcome s record = o ↔ s.Outcome (r.Answers record) o :=
  Rule.eval_eq_iff (fun _ _ => Answers.test_eq) fun f hf => exists_answers (h f hf) record

/-- Records are not looked at when the rule does not compile. -/
theorem filterData_of_error {e : EvalError} (h : r.compileFilter s = .error e) :
    r.filterData (some s) config records = .error e := by
  rw [filterData, h]
  rfl

/-- A rule that compiles selects by its predicate, under the settings given. -/
theorem filterData_of_ok {p : Predicate} (h : r.compileFilter s = .ok p) :
    r.filterData (some s) config records = ({ p with config } : Predicate).select records := by
  rw [filterData, h]
  rfl

/-- When failures are passed on, a rule selects if it compiles and has a result on every record. -/
theorem filterData_eq_ok_iff :
    r.filterData (some s) ⟨.propagate, fallback⟩ records = .ok kept ↔
      (∃ p, r.compileFilter s = .ok p) ∧ (∀ record ∈ records, ∃ b, r.outcome s record = .ok b) ∧
        kept = records.filter fun record => accepted (r.outcome s record) := by
  cases h : r.compileFilter s with
  | error e => simp [filterData_of_error h]
  | ok p =>
    rw [filterData_of_ok h, Predicate.select_eq_ok_iff]
    simp only [test_of_compileFilter h, outcome, Except.ok.injEq, exists_eq', true_and]

/-- Without a rule everything is selected, and a rule that does not compile fails whatever the
records are.  Else the outcome of the whole rule decides for each record: the first failure ends the
selection, or with a fallback there is always a selection, and records with a failure are in it if
the fallback says so. -/
theorem filterData_exact (r : Resolver) (records : List Value) :
    (∀ config, r.filterData none config records = .ok records) ∧
    ∀ s, (∀ e config, r.compileFilter s = .error e →
        r.filterData (some s) config records = .error e) ∧
      ∀ p, r.compileFilter s = .ok p → ∀ fallback,
        let test := ({ p with config := ⟨.propagate, fallback⟩ } : Predicate).test
        (∀ record o, test record = o ↔ s.Outcome (r.Answers record) o) ∧
        ((∃ kept, r.filterData (some s) ⟨.propagate, fallback⟩ records = .ok kept) ↔
          ∀ record ∈ records, ∃ b, test record = .ok b) ∧
        (∀ kept, r.filterData (some s) ⟨.propagate, fallback⟩ records = .ok kept →
          KeepsExactly (fun record => test record = .ok true) records kept) ∧
        (∀ e, r.filterData (some s) ⟨.propagate, fallback⟩ records = .error e ↔
          FailsFirst test records e) ∧
        ∃ kept, r.filterData (some s) ⟨.fallback, fallback⟩ records = .ok kept ∧
          KeepsExactly (fun record => test record = .ok true ∨
            fallback = true ∧ ∃ e, test record = .error e) records kept := by
  refine ⟨fun config => Predicate.select_eq_self (fun _ => rfl) records, fun s => ⟨fun e config h =>
    filterData_of_error h, fun p hp fallback => ?_⟩⟩
  intro test
  have hresolves := exists_compileFilter_eq_ok_iff.1 ⟨p, hp⟩
  -- what is done about failures is decided after the evaluation, so that is where both policies
  -- meet
  have htest : ∀ record, test record = p.eval record := fun record =>
    Predicate.test_propagate p fallback record
  rw [filterData_of_ok hp, filterData_of_ok hp, Predicate.select_fallback]
  refine ⟨fun record o => ?_, ?_, fun kept hkept => ?_, fun e => Predicate.select_eq_error_iff,
    _, rfl, fun record => (p.eval record).toOption.getD fallback, fun record => ?_, rfl⟩
  · rw [← outcome_eq_iff hresolves, htest, outcome, eval_of_compileFilter hp]
  · simp only [Predicate.select_eq_ok_iff, exists_and_left, exists_eq, and_true]
    rfl
  · exact ⟨fun record => accepted (test record), fun record => accepted_iff,
      (Predicate.select_eq_ok_iff.1 hkept).2⟩
  · simp only [htest]
    exact toOption_getD_iff

/-- The failure lies in a group that is inverted.  The record with it is kept or dropped by the
fallback as it is, between two copies of a record that passes. -/
theorem filterData_exact_inverted : ∃ (r : Resolver) (s stale : Rule Filter) (p : Predicate)
    (passing failing : Value),
    Registry.builtinFilters = .ok r.registry ∧
      r.schema = .record [("n", .int), ("name", .text)] ∧
      s = .group "g" .and true [.group "h" .or false
        [.leaf ⟨"a", [.field "n"], "greater than", [.int 5], false⟩,
          .leaf ⟨"b", [.field "name"], "contains", [.text "a"], true⟩]] ∧
      stale = .leaf ⟨"c", [.field "m"], "greater than", [.int 5], false⟩ ∧
      passing = .recordOf [("n", .int 3), ("name", .text "ab")] ∧
      failing = .recordOf [("n", .int 3), ("name", .int 1)] ∧
      (∀ config, r.filterData (some stale) config [] =
        .error (.unresolved (.pathNotInSchema [.field "m"]))) ∧
      r.compileFilter s = .ok p ∧
      r.filterData (some s) ⟨.propagate, true⟩ [passing, failing, passing] =
        .error (.operation "contains" "b" (.unexpected "Text" (.int 1))) ∧
      r.filterData (some s) ⟨.fallback, true⟩ [passing, failing, passing] =
        .ok [passing, failing, passing] ∧
      r.filterData (some s) ⟨.fallback, false⟩ [passing, failing, passing] =
        .ok [passing, passing] := by
  obtain ⟨r, greater, contains, hregistry, hschema, hgreater, hcontains, hname, hno, hyes,
    hfails⟩ := exists_greater_contains
  let a : Filter := ⟨"a", [.field "n"], "greater than", [.int 5], false⟩
  let b : Filter := ⟨"b", [.field "name"], "contains", [.text "a"], true⟩
  let stale : Filter := ⟨"c", [.field "m"], "greater than", [.int 5], false⟩
  let s : Rule Filter := .group "g" .and true [.group "h" .or false [.leaf a, .leaf b]]
  let passing : Value := .recordOf [("n", .int 3), ("name", .text "ab")]
  let failing : Value := .recordOf [("n", .int 3), ("name", .int 1)]
  have hstale : r.compileFilter (.leaf stale) =
      .error (.unresolved (.pathNotInSchema [.field "m"])) := by
    obtain ⟨found, -, hfound, -⟩ := resolve_eq_ok_iff.1 hgreater
    have hresolve : r.resolve "greater than" [.field "m"] =
        .error (.pathNotInSchema [.field "m"]) := by
      rw [resolve, hfound, fieldType, hschema]
      rfl
    exact compileFilter_eq_error_iff.2
      ⟨_, rfl, [], stale, [], rfl, List.forall_mem_nil _, hresolve⟩
  have hresolves : ∀ f ∈ s.leaves, ∃ op, r.resolve f.operation f.path = .ok op :=
    List.forall_mem_cons.2 ⟨⟨_, hgreater⟩, List.forall_mem_singleton.2 ⟨_, hcontains⟩⟩
  obtain ⟨p, hp⟩ := exists_compileFilter_eq_ok_iff.2 hresolves
  have hpassing : r.outcome s passing = .ok true := by
    have ha : r.Answers passing a (.ok false) := .answer (f := a) (b := false) hgreater hno
    have hb : r.Answers passing b (.ok false) := .answer (f := b) (b := true) hcontains hyes
    simp only [outcome, s, Rule.eval, Rule.evalAll, Rule.evalAny, ha.test_eq, hb.test_eq]
    rfl
  have hfailing : r.outcome s failing =
      .error (.operation "contains" "b" (.unexpected "Text" (.int 1))) := by
    have ha : r.Answers failing a (.ok false) := .answer (f := a) (b := false) hgreater hno
    have hb : r.Answers failing b
        (.error (.operation "contains" "b" (.unexpected "Text" (.int 1)))) :=
      hname ▸ .failed (f := b) hcontains hfails
    simp only [outcome, s, Rule.eval, Rule.evalAll, Rule.evalAny, ha.test_eq, hb.test_eq]
    rfl
  obtain ⟨-, hrules⟩ := filterData_exact r [passing, failing, passing]
  have hexact := (hrules s).2 p hp
  have htest : ∀ fallback record,
      ({ p with config := ⟨.propagate, fallback⟩ } : Predicate).test record =
        r.outcome s record := fun fallback record => test_of_compileFilter hp record fallback
  refine ⟨r, s, .leaf stale, p, passing, failing, hregistry, hschema, rfl, rfl, rfl, rfl,
    fun config => ((filterData_exact r []).2 _).1 _ config hstale, hp, ?_, ?_, ?_⟩
  · obtain ⟨-, -, -, herror, -⟩ := hexact true
    refine (herror _).2 ⟨[passing], failing, [passing], rfl, ?_, (htest _ _).trans hfailing⟩
    exact List.forall_mem_singleton.2 ⟨true, (htest _ _).trans hpassing⟩
  · obtain ⟨-, -, -, -, kept, hkept, keep, hkeep, rfl⟩ := hexact true
    have hyes : keep passing = true := (hkeep _).2 (.inl ((htest _ _).trans hpassing))
    have hno : keep failing = true := (hkeep _).2 (.inr ⟨rfl, _, (htest _ _).trans hfailing⟩)
    rw [hkept, List.filter_eq_self.2 (by simp [hyes, hno])]
  · obtain ⟨-, -, -, -, kept, hkept, keep, hkeep, rfl⟩ := hexact false
    have hyes : keep passing = true := (hkeep _).2 (.inl ((htest _ _).trans hpassing))
    have hno : ¬ keep failing = true := by
      intro h
      rcases (hkeep _).1 h with htrue | ⟨hfallback, -⟩
      · rw [htest, hfailing] at htrue
        cases htrue
      · cases hfallback
    rw [hkept, List.filter_cons_of_pos hyes, List.filter_cons_of_neg hno,
      List.filter_cons_of_pos hyes, List.filter_nil]

/-! ## Stages -/

/-- A group of rules that have to hold together comes to what its first rule comes to, unless that
is true. -/
theorem outcome_and_cons : r.outcome (.group id .and false (s :: rest)) record =
    andThen (r.outcome s record) (r.outcome (.group id .and false rest) record) := by
  rw [outcome, outcome, outcome, Rule.eval_and, Rule.eval_and]
  rfl

/-- A group compiles when its first condition does and the group of the others does. -/
theorem exists_compileFilter_group_cons {op : Connective} {invert : Bool} :
    (∃ p, r.compileFilter (.group id op invert (s :: rest)) = .ok p) ↔
      (∃ p, r.compileFilter s = .ok p) ∧
        ∃ p, r.compileFilter (.group id op invert rest) = .ok p := by
  simp only [exists_compileFilter_eq_ok_iff, Rule.leaves, Rule.leavesOf, List.forall_mem_append]

/-- A conjunction of nothing keeps all records. -/
theorem filterData_and_nil : r.filterData (some (.group id .and false [])) config records =
    .ok records := by
  have hcompiled : r.compileFilter (.group id .and false []) =
      .ok ⟨some (.group id .and false []), .default⟩ := rfl
  rw [filterData_of_ok hcompiled]
  apply Predicate.select_eq_self
  intro record
  exact Predicate.test_eq_ok rfl config

/-- The first rule of a group selects first, and the rest of the group from what it keeps. -/
theorem filterData_and_cons :
    r.filterData (some (.group id .and false (s :: rest))) ⟨.propagate, fallback⟩ records =
        .ok kept ↔
      ∃ left, r.filterData (some s) ⟨.propagate, fallback⟩ records = .ok left ∧
        r.filterData (some (.group id .and false rest)) ⟨.propagate, fallback⟩ left =
          .ok kept := by
  simp only [filterData_eq_ok_iff, exists_compileFilter_group_cons, outcome_and_cons,
    forall_exists_andThen_eq_ok_iff, filter_accepted_andThen]
  constructor
  · rintro ⟨⟨hs, hrest⟩, ⟨hfirst, hsecond⟩, rfl⟩
    exact ⟨_, ⟨hs, hfirst, rfl⟩, hrest, hsecond, rfl⟩
  · rintro ⟨_, ⟨hs, hfirst, rfl⟩, hrest, hsecond, rfl⟩
    exact ⟨⟨hs, hrest⟩, ⟨hfirst, hsecond⟩, rfl⟩

/-- Rules that have to hold together select as they do one after the other, each from what those
before it left: both succeed or both fail. -/
theorem filterData_stages (r : Resolver) (id : String) (rules : List (Rule Filter))
    (fallback : Bool) (records kept : List Value) :
    r.filterData (some (.group id .and false rules)) ⟨.propagate, fallback⟩ records = .ok kept ↔
      rules.foldlM (fun left s => r.filterData (some s) ⟨.propagate, fallback⟩ left) records =
        .ok kept := by
  induction rules generalizing records with
  | nil =>
    rw [filterData_and_nil, List.foldlM_nil, pure_eq_ok_iff, Except.ok.injEq]
  | cons s rest ih =>
    rw [filterData_and_cons, List.foldlM_cons, RecordRules.bind_eq_ok_iff]
    simp only [ih]

end Resolver

end RecordRules
