import RecordRules.Proofs.Sorting

/-!
# Operations that return what they declare

An operation is honest if all its results are of the type that its signature names.  A registry
takes only signatures whose results serve its role, so a rule over honest operations never fails
for the kind of a result (`Resolver.no_wrong_results`).
-/

namespace RecordRules

/-! ## Results that serve a role -/

namespace Ty

variable {t : Ty} {v : Value}

/-- A union returns numbers when all its members do. -/
theorem allNumberLike_iff {ts : List Ty} :
    allNumberLike ts = true ↔ ∀ t ∈ ts, t.isNumberLike = true := by
  induction ts with
  | nil => simp [allNumberLike]
  | cons t rest ih => rw [allNumberLike, Bool.and_eq_true, ih, List.forall_mem_cons]

/-- The values of a number-like type are numbers. -/
theorem exists_number_of_admits (ht : t.isNumberLike = true) (hv : t.admits v = true) :
    (∃ i, v = .int i) ∨ ∃ d, v = .decimal d := by
  induction t with
  | int => exact .inl (int_admits_iff.1 hv)
  | decimal => exact (decimal_admits_iff.1 hv).symm
  | literal u =>
    have huv := literal_admits_iff.1 hv
    cases u with
    | int i => exact .inl ⟨i, Value.int_beq_iff.1 huv⟩
    | decimal d =>
      obtain ⟨e, rfl, -⟩ := Value.decimal_beq_iff.1 huv
      exact .inr ⟨e, rfl⟩
    | null | bool | text | date | dateTime | list | record => simp [isNumberLike] at ht
  | union members ih =>
    obtain ⟨t, hmem, hv⟩ := union_admits_iff.1 hv
    rw [isNumberLike, Bool.and_eq_true, allNumberLike_iff] at ht
    exact ih t hmem (ht.2 t hmem) hv
  | any | null | bool | text | date | dateTime | list | tuple | record =>
    simp [isNumberLike] at ht

end Ty

/-- The results that an operation may have in a role: booleans of predicates, numbers of
comparisons. -/
def Role.Takes : Role → Value → Prop
  | filter, v => ∃ b, v = .bool b
  | sort, v => (∃ i, v = .int i) ∨ ∃ d, v = .decimal d

/-- A role takes the results of the signatures that it accepts. -/
theorem Role.takes_of_accepts {role : Role} {s : Signature} {v : Value}
    (hs : role.accepts s = true) (hv : s.returns.admits v = true) : role.Takes v := by
  cases role with
  | filter =>
    have hbool : s.returns = .bool := by
      have hreturns := (Bool.and_eq_true_iff.1 hs).1
      cases hr : s.returns <;> simp [Ty.isBool, hr] at hreturns ⊢
    rw [hbool] at hv
    exact Ty.bool_admits_iff.1 hv
  | sort => exact Ty.exists_number_of_admits (Bool.and_eq_true_iff.1 hs).1 hv

/-! ## Honest operations -/

/-- All results are of the type that the signature names. -/
def StandardOperation.Honest (op : StandardOperation) : Prop :=
  ∀ args v, op.run args = .ok v → op.signature.returns.admits v = true

/-- A generic operation keeps to the signature for each field type for which it is
instantiated. -/
def Operation.Honest (role : Role) : Operation → Prop
  | standard op => op.Honest
  | generic op => ∀ t found, op.instantiate? role t = some found → found.Honest

def Registry.Honest (r : Registry) : Prop := ∀ op ∈ r.operations.toList, op.Honest r.role

namespace Resolver

variable {r : Resolver} {op : StandardOperation}

/-- What an operation is on a field fits the role, and is honest as the operation is. -/
theorem accepts_and_honest_of_instanceFor {found : Operation} {t : Ty} (hr : r.registry.Sound)
    (hhonest : r.registry.Honest) (hfound : found ∈ r.registry.operations.toList)
    (h : r.instanceFor found t = .ok op) :
    r.registry.role.accepts op.signature = true ∧ op.Honest := by
  have hfoundHonest := hhonest found hfound
  cases found with
  | standard op' =>
    obtain rfl := Except.ok.inj h
    exact ⟨hr.accepts hfound, hfoundHonest⟩
  | generic g =>
    have hop := instanceFor_generic_eq_ok_iff.1 h
    exact ⟨accepts_of_instantiate? hop, hfoundHonest t op hop⟩

/-- The role takes what an operation that resolves returns, whatever it is called with. -/
theorem takes_of_resolve (hr : r.registry.Sound) (hhonest : r.registry.Honest) {name : String}
    {path : Path} (hop : r.resolve name path = .ok op) {args : List Value} {v : Value}
    (hv : op.run args = .ok v) : r.registry.role.Takes v := by
  obtain ⟨found, t, hget, -, hinstance, -⟩ := resolve_eq_ok_iff.1 hop
  have hfound := (hr.indexed.get?_eq_some hget).1
  obtain ⟨haccepts, hhonest⟩ := accepts_and_honest_of_instanceFor hr hhonest hfound hinstance
  exact Role.takes_of_accepts haccepts (hhonest args v hv)

end Resolver

/-! ## The ready-made operations -/

namespace Builtins

/-- An operation that compares is honest for every type it applies to, if all its results are of the
type that it names. -/
theorem comparison_honest {name : String} {guard : Ty → Bool} {returns : Ty}
    {run : Value → Value → Except OperationError Value}
    (h : ∀ v w u, run v w = .ok u → returns.admits u = true) (role : Role) :
    (comparison name guard returns run).Honest role := by
  intro t found hfound args u hu
  obtain ⟨-, hsignature, hrun, -⟩ := Resolver.instantiate?_eq_some hfound
  rw [hsignature]
  rw [hrun] at hu
  dsimp only at hu
  split at hu
  · next v w => exact h v w u hu
  · cases hu

/-- A comparison that makes something of the order of its values. -/
theorem ordered_honest {name : String} {guard : Ty → Bool} {returns : Ty} {f : Ordering → Value}
    (h : ∀ o, returns.admits (f o) = true) (role : Role) :
    (comparison name guard returns fun left right => do
      return f (← compareValues left right)).Honest role := by
  refine comparison_honest (fun v w u hu => ?_) role
  obtain ⟨o, -, hu⟩ := RecordRules.bind_eq_ok_iff.1 hu
  obtain rfl := Except.ok.inj hu
  exact h o

/-- The ready-made operations return what they declare. -/
theorem honest (role : Role) : ∀ op ∈ filters ++ sorts, op.Honest role := by
  intro op hop
  simp only [filters, sorts, List.cons_append, List.nil_append, List.mem_cons, List.not_mem_nil,
    or_false] at hop
  rcases hop with rfl | rfl | rfl | rfl | rfl | rfl
  · refine comparison_honest (fun v w u hu => ?_) role
    obtain rfl := Except.ok.inj hu
    rfl
  · exact ordered_honest (f := fun o => .bool (o == .gt)) (fun _ => rfl) role
  · exact ordered_honest (f := fun o => .bool (o == .lt)) (fun _ => rfl) role
  · intro args u hu
    dsimp only at hu
    split at hu <;> cases hu
    rfl
  · intro args u hu
    dsimp only at hu
    split at hu <;> cases hu <;> rfl
  · exact ordered_honest (f := Value.ofOrdering) (fun o => by cases o <;> rfl) role

end Builtins

/-! ## Failures for the kind of a result -/

/-- A filter that fails for want of a boolean has run an operation that answered something else. -/
theorem BoundFilter.exists_run_of_notABoolean {f : BoundFilter} {record : Value}
    {name id got : String} (h : f.test record = .error (.notABoolean name id got)) :
    ∃ args v, f.operation.run args = .ok v ∧ ¬ Role.filter.Takes v := by
  have hanswer : f.answer record = .error (.notABoolean name id got) := by
    rw [test] at h
    cases ha : f.answer record with
    | error e =>
      rw [ha] at h
      exact congrArg _ (Except.error.inj h)
    | ok b =>
      rw [ha] at h
      cases h
  rw [answer] at hanswer
  split at hanswer
  · cases hanswer
  · cases hanswer
  · next v hne hrun =>
    refine ⟨_, v, hrun, ?_⟩
    rintro ⟨b, rfl⟩
    exact hne b rfl

/-- A key that fails for want of a number has run an operation that answered something else. -/
theorem SortKey.exists_run_of_notANumber {k : SortKey} {a b : Value} {name got : String}
    (h : k.compare a b = .error (.notANumber name got)) :
    ∃ args v, k.operation.run args = .ok v ∧ ¬ Role.sort.Takes v := by
  rw [compare] at h
  split at h
  · cases h
  · next v hrun =>
    refine ⟨_, v, hrun, ?_⟩
    rw [map_eq_error_iff] at h
    rintro (⟨i, rfl⟩ | ⟨d, rfl⟩) <;> cases h

namespace Resolver

variable {r : Resolver}

/-- Over honest operations no rule fails for want of a boolean, whatever its settings. -/
theorem test_ne_notABoolean (hr : r.registry.Sound) (hhonest : r.registry.Honest)
    (hrole : r.registry.role = .filter) {s : Rule Filter} {p : Predicate}
    (hp : r.compileFilter s = .ok p) (config : FilterConfig) (record : Value)
    (name id got : String) :
    ({ p with config } : Predicate).test record ≠ .error (.notABoolean name id got) := by
  obtain ⟨bound, hbound, rfl⟩ := map_eq_ok_iff.1 hp
  intro htest
  have heval : bound.eval (BoundFilter.test record) = .error (.notABoolean name id got) := by
    simp only [Predicate.test, Predicate.eval] at htest
    split at htest
    · cases htest
    · exact htest
  obtain ⟨f, hf, hfails⟩ := Rule.exists_leaf_of_eval_eq_error heval
  obtain ⟨g, -, hg⟩ := Rule.made_of_traverse hbound f hf
  obtain ⟨op, hop, rfl⟩ := bind_eq_ok_iff.1 hg
  obtain ⟨args, v, hrun, hv⟩ := BoundFilter.exists_run_of_notABoolean hfails
  exact hv (hrole ▸ takes_of_resolve hr hhonest hop hrun)

/-- Over honest operations no sort rule fails for want of a number. -/
theorem compare_ne_notANumber (hr : r.registry.Sound) (hhonest : r.registry.Honest)
    (hrole : r.registry.role = .sort) {rule : SortRule} {c : Comparator}
    (hc : r.compileSort rule = .ok c) (a b : Value) (name got : String) :
    c.compare a b ≠ .error (.notANumber name got) := by
  intro hcompare
  obtain ⟨k, hk, hfails⟩ := Comparator.exists_key_of_compareBy_eq_error hcompare
  obtain ⟨i, -, hi⟩ := exists_mem_of_forall₂ (compileSort_eq_ok_iff.1 hc) hk
  obtain ⟨op, hop, rfl⟩ := bindItem_eq_ok_iff.1 hi
  obtain ⟨args, v, hrun, hv⟩ := SortKey.exists_run_of_notANumber hfails
  exact hv (hrole ▸ takes_of_resolve hr hhonest hop hrun)

/-- Over honest operations, however they were registered, no predicate fails for a result that is
no boolean, and no comparator for one that is no number. -/
theorem no_wrong_results (role : Role) (ops : List Operation)
    (h : ((Registry.empty role).registerAll ops).Honest) (schema : Ty) (oracle : Ty → Ty → Bool) :
    let r : Resolver := ⟨(Registry.empty role).registerAll ops, schema, oracle⟩
    (role = .filter → ∀ s p, r.compileFilter s = .ok p → ∀ config record name id got,
      ({ p with config } : Predicate).test record ≠ .error (.notABoolean name id got)) ∧
    (role = .sort → ∀ rule c, r.compileSort rule = .ok c → ∀ a b name got,
      c.compare a b ≠ .error (.notANumber name got)) := by
  intro r
  have hr : r.registry.Sound := Registry.sound_registerAll role ops
  have hrole : r.registry.role = role := Registry.role_registerAll (.empty role) ops
  constructor
  · intro hfilter s p hp config record name id got
    exact test_ne_notABoolean hr h (hrole.trans hfilter) hp config record name id got
  · intro hsort rule c hc a b name got
    exact compare_ne_notANumber hr h (hrole.trans hsort) hc a b name got

/-- The ready-made operations, of which one is registered a second time in vain. -/
theorem no_wrong_results_ready : ∃ (ops : List Operation) (r q : Resolver) (s : Rule Filter)
    (p : Predicate) (rule : SortRule) (c : Comparator),
    ops = Builtins.filters ++ Builtins.filters ∧
    r = ⟨(Registry.empty .filter).registerAll ops, .record [("n", .optional .int)], Ty.accepts⟩ ∧
    r.registry.Honest ∧ s = .leaf ⟨"a", [.field "n"], "greater than", [.text "x"], true⟩ ∧
    r.compileFilter s = .ok p ∧
    (∀ config record name id got,
      ({ p with config } : Predicate).test record ≠ .error (.notABoolean name id got)) ∧
    q = ⟨(Registry.empty .sort).registerAll Builtins.sorts, r.schema, Ty.accepts⟩ ∧
    q.registry.Honest ∧ rule = [⟨[.field "n"], "compare", .desc⟩] ∧
    q.compileSort rule = .ok c ∧
    ∀ a b name got, c.compare a b ≠ .error (.notANumber name got) := by
  let r : Resolver := ⟨(Registry.empty .filter).registerAll (Builtins.filters ++ Builtins.filters),
    .record [("n", .optional .int)], Ty.accepts⟩
  let q : Resolver := ⟨(Registry.empty .sort).registerAll Builtins.sorts, r.schema, Ty.accepts⟩
  have hr : r.registry.Honest := fun op hop =>
    Builtins.honest .filter op (List.mem_append_left _ hop)
  have hq : q.registry.Honest := fun op hop =>
    Builtins.honest .sort op (List.mem_append_right _ hop)
  have haccepts := Ty.accepts_self (.optional .int)
  have hgreater : ∃ op, r.resolve "greater than" [.field "n"] = .ok op :=
    ⟨_, resolve_eq_ok_iff.2 ⟨Builtins.greaterThan, .optional .int, rfl, rfl, rfl, if_pos haccepts⟩⟩
  have hcompare : ∃ op, q.resolve "compare" [.field "n"] = .ok op :=
    ⟨_, resolve_eq_ok_iff.2 ⟨Builtins.compare, .optional .int, rfl, rfl, rfl, if_pos haccepts⟩⟩
  obtain ⟨p, hp⟩ : ∃ p, r.compileFilter
      (.leaf ⟨"a", [.field "n"], "greater than", [.text "x"], true⟩) = .ok p := by
    obtain ⟨op, hop⟩ := hgreater
    rw [compileFilter, Rule.traverse, bind_eq_ok_iff.2 ⟨op, hop, rfl⟩]
    exact ⟨_, rfl⟩
  obtain ⟨c, hc⟩ : ∃ c, q.compileSort [⟨[.field "n"], "compare", .desc⟩] = .ok c := by
    obtain ⟨op, hop⟩ := hcompare
    exact ⟨⟨[_]⟩, compileSort_eq_ok_iff.2 (.cons (bindItem_eq_ok_iff.2 ⟨op, hop, rfl⟩) .nil)⟩
  have hfilter := (no_wrong_results .filter _ hr r.schema r.oracle).1 rfl _ p hp
  have hsort := (no_wrong_results .sort _ hq q.schema q.oracle).2 rfl _ c hc
  exact ⟨_, r, q, _, p, _, c, rfl, rfl, hr, rfl, hp, hfilter, rfl, hq, rfl, hc, hsort⟩

end Resolver

end RecordRules
