import RecordRules.Proofs.Registry
import RecordRules.Registry.InPlace

/-!
# A registry and the calls that made it

Registering in place does what `Registry.register` tells, and leaves the registry as it was when it
refuses (`InPlace.run_register`).  So a registry that was empty is known by the calls made of it,
accepted and refused: what it lists are the accepted operations, its index is in step with the
list, and what it refuses next can be read off (`Registry.after_reflects`).
-/

namespace RecordRules.Registry

namespace InPlace

/-! ## One call -/

/-- The check of a name fails on one that is taken and writes nothing. -/
theorem run_checkName (name : String) (r : Registry) : (checkName name).run r =
    if r.contains name then .error (.duplicateOperation name) r else .ok () r := by
  cases h : r.contains name <;> simp [checkName, h]

/-- The check of a signature fails on an unfit one and writes nothing. -/
theorem run_checkSignature (op : Operation) (r : Registry) : (checkSignature op).run r =
    match unfit? r.role op with
    | some e => .error e r
    | none => .ok () r := by
  cases op with
  | generic op => rfl
  | standard op =>
    cases hempty : op.signature.params.isEmpty <;> cases hrole : r.role.accepts op.signature <;>
      simp [checkSignature, unfit?, hempty, hrole]

/-- All that can be refused is refused before anything changes. -/
theorem run_register (op : Operation) (r : Registry) : (register op).run r =
    match r.register op with
    | .ok r' => .ok () r'
    | .error e => .error e r := by
  rw [register, EStateM.run_bind, run_checkName, Registry.register]
  cases r.contains op.name with
  | true => rfl
  | false => cases hfit : unfit? r.role op <;> simp [run_checkSignature, hfit]

end InPlace

/-- The answer to a call, and the registry after it. -/
def call (r : Registry) (op : Operation) : Except RegistryError Unit × Registry :=
  match (InPlace.register op).run r with
  | .ok _ r' => (.ok (), r')
  | .error e r' => (.error e, r')

variable {r r' : Registry} {op : Operation} {calls : List Operation} {name : String}

/-- A registration that succeeds leaves what it made. -/
theorem call_of_ok (h : r.register op = .ok r') : r.call op = (.ok (), r') := by
  rw [call, InPlace.run_register, h]

/-- A registration that fails leaves the registry as it was. -/
theorem call_of_error {e : RegistryError} (h : r.register op = .error e) :
    r.call op = (.error e, r) := by
  rw [call, InPlace.run_register, h]

/-- A registration fails when the name is taken or the signature does not suit the role. -/
theorem exists_register_eq_error_iff :
    (∃ e, r.register op = .error e) ↔ r.contains op.name = true ∨ ¬ op.Suits r.role := by
  rw [← unfit?_eq_none_iff, register]
  cases r.contains op.name <;> cases unfit? r.role op <;> simp

/-- The call in place fails in the same cases. -/
theorem exists_call_eq_error_iff :
    (∃ e, (r.call op).1 = .error e) ↔ r.contains op.name = true ∨ ¬ op.Suits r.role := by
  rw [← exists_register_eq_error_iff]
  cases h : r.register op with
  | ok r' => simp [call_of_ok h]
  | error e => simp [call_of_error h]

/-- A refusal leaves the registry as it was. -/
theorem call_snd_of_error {e : RegistryError} (h : (r.call op).1 = .error e) :
    (r.call op).2 = r := by
  cases hop : r.register op with
  | ok r' =>
    rw [call_of_ok hop] at h
    cases h
  | error e' => rw [call_of_error hop]

/-- No call changes the role. -/
theorem role_call (r : Registry) (op : Operation) : (r.call op).2.role = r.role := by
  cases h : r.register op with
  | ok r' =>
    obtain ⟨-, -, rfl⟩ := register_eq_ok_iff.1 h
    rw [call_of_ok h]
  | error e => rw [call_of_error h]

/-- A name is taken once an operation that suits the role was to be registered under it. -/
theorem contains_call_iff : (r.call op).2.contains name = true ↔
    r.contains name = true ∨ op.name = name ∧ op.Suits r.role := by
  cases h : r.register op with
  | ok r' =>
    obtain ⟨-, hfit, rfl⟩ := register_eq_ok_iff.1 h
    have hsuits := unfit?_eq_none_iff.1 hfit
    rw [call_of_ok h]
    by_cases hname : op.name = name <;> simp [contains, KeyMap.contains, hname, hsuits]
  | error e =>
    rw [call_of_error h]
    refine ⟨.inl, ?_⟩
    rintro (htaken | ⟨rfl, hsuits⟩)
    · exact htaken
    · exact (exists_register_eq_error_iff.1 ⟨e, h⟩).resolve_right (not_not.2 hsuits)

/-! ## Many calls -/

/-- The registry after these calls, each of which finds it as the one before leaves it. -/
def after (r : Registry) (calls : List Operation) : Registry :=
  calls.foldl (fun r op => (r.call op).2) r

/-- The operations of the calls that succeed, in the order of the calls. -/
def accepted (r : Registry) : List Operation → List Operation
  | [] => []
  | op :: calls =>
    match r.call op with
    | (.ok _, r') => op :: r'.accepted calls
    | (.error _, r') => r'.accepted calls

/-- Calls are made one after the other. -/
theorem after_cons (r : Registry) (op : Operation) (calls : List Operation) :
    r.after (op :: calls) = (r.call op).2.after calls := rfl

/-- A call that succeeds is accepted before those that follow. -/
theorem accepted_cons_of_ok (h : r.register op = .ok r') (calls : List Operation) :
    r.accepted (op :: calls) = op :: r'.accepted calls := by
  rw [accepted, call_of_ok h]

/-- A call that fails is passed over. -/
theorem accepted_cons_of_error {e : RegistryError} (h : r.register op = .error e)
    (calls : List Operation) : r.accepted (op :: calls) = r.accepted calls := by
  rw [accepted, call_of_error h]

/-- What is accepted was called, in the order of the calls. -/
theorem accepted_sublist (r : Registry) (calls : List Operation) :
    (r.accepted calls).Sublist calls := by
  induction calls generalizing r with
  | nil => exact .slnil
  | cons op calls ih =>
    cases h : r.register op with
    | ok r' =>
      rw [accepted_cons_of_ok h]
      exact (ih r').cons_cons op
    | error e =>
      rw [accepted_cons_of_error h]
      exact (ih r).cons op

/-- Making the calls in place is registering one after the other and passing over refusals. -/
theorem after_eq_registerAll (r : Registry) (calls : List Operation) :
    r.after calls = r.registerAll calls := by
  have hstep : (fun (r : Registry) op => (r.call op).2) =
      fun r op => (r.register op).toOption.getD r := by
    funext r op
    cases h : r.register op with
    | ok r' => rw [call_of_ok h]; rfl
    | error e => rw [call_of_error h]; rfl
  rw [after, registerAll, hstep]

/-- After the calls the registry lists what it had and then what was accepted. -/
theorem operations_after (r : Registry) (calls : List Operation) :
    (r.after calls).operations.toList = r.operations.toList ++ r.accepted calls := by
  induction calls generalizing r with
  | nil => simp [after, accepted]
  | cons op calls ih =>
    rw [after_cons, ih]
    cases h : r.register op with
    | ok r' =>
      rw [call_of_ok h, accepted_cons_of_ok h]
      obtain ⟨-, -, rfl⟩ := register_eq_ok_iff.1 h
      simp
    | error e => rw [call_of_error h, accepted_cons_of_error h]

/-- After the calls a name is taken if it was before, or if an operation of this name suited. -/
theorem contains_after_iff : (r.after calls).contains name = true ↔
    r.contains name = true ∨ ∃ op ∈ calls, op.name = name ∧ op.Suits r.role := by
  induction calls generalizing r with
  | nil => simp [after]
  | cons op calls ih =>
    rw [after_cons, ih, contains_call_iff, role_call, List.exists_mem_cons_iff, or_assoc]

/-- A list of operations makes a registry if none of them is refused. -/
theorem foldlM_register_eq_ok_iff {ops : List Operation} : ops.foldlM register r = .ok r' ↔
    r.accepted ops = ops ∧ r' = r.after ops := by
  induction ops generalizing r with
  | nil => simp [accepted, after, pure, Except.pure, eq_comm]
  | cons op ops ih =>
    rw [List.foldlM_cons, after_cons]
    cases h : r.register op with
    | ok r₁ =>
      rw [accepted_cons_of_ok h, call_of_ok h, List.cons.injEq, eq_self, true_and]
      exact ih
    | error e =>
      rw [accepted_cons_of_error h]
      constructor
      · nofun
      · rintro ⟨hall, -⟩
        have hle := (r.accepted_sublist ops).length_le
        rw [hall, List.length_cons] at hle
        exact absurd hle (Nat.not_succ_le_self _)

/-! ## A registry by its calls -/

/-- The registry has this role and is what these calls have made of it. -/
structure Reflects (r : Registry) (role : Role) (calls : List Operation) : Prop where
  role_eq : r.role = role
  operations_eq : r.operations.toList = (empty role).accepted calls
  nodup_names : (r.operations.toList.map Operation.name).Nodup
  suits : ∀ op ∈ r.operations.toList, op.Suits role
  mem_keys_iff : ∀ name, name ∈ r.index.keys ↔ name ∈ r.operations.toList.map Operation.name
  /-- The index leads to a position in the list, where the operation has this name. -/
  get?_index_iff : ∀ name i, r.index.get? name = some i ↔
    ∃ hi : i < r.operations.size, r.operations[i].name = name
  get?_iff : ∀ name op, r.get? name = some op ↔ op ∈ r.operations.toList ∧ op.name = name
  /-- A name is taken by the first operation of this name that suits the role. -/
  contains_iff : ∀ name, r.contains name = true ↔ ∃ op ∈ calls, op.name = name ∧ op.Suits role
  error_iff : ∀ op, (∃ e, (r.call op).1 = .error e) ↔ r.contains op.name = true ∨ ¬ op.Suits role
  eq_of_error : ∀ op e, (r.call op).1 = .error e → (r.call op).2 = r

/-- After calls of an empty registry nothing is in it but what was accepted. -/
theorem reflects_after (role : Role) (calls : List Operation) :
    ((empty role).after calls).Reflects role calls := by
  have hsound : ((empty role).after calls).Sound := by
    rw [after_eq_registerAll]
    exact sound_registerAll role calls
  have hrole : ((empty role).after calls).role = role := by
    rw [after_eq_registerAll]
    exact role_registerAll (empty role) calls
  refine ⟨hrole, operations_after (empty role) calls, hsound.indexed.nodup_names, fun op hop => ?_,
    fun name => hsound.indexed.mem_keys_iff, fun name i => hsound.indexed.get?_index_iff,
    fun name op => hsound.indexed.get?_eq_some_iff, fun name => ?_, fun op => ?_,
    fun op e => call_snd_of_error⟩
  · rw [← hrole]
    exact unfit?_eq_none_iff.1 (hsound.fit op hop)
  · rw [contains_after_iff]
    simp [empty, Registry.contains, KeyMap.contains]
  · rw [exists_call_eq_error_iff, hrole]

/-- Whatever calls are made of an empty registry, it is the one that they tell, and it is made of
their operations at once if and only if none of them is refused. -/
theorem after_reflects (role : Role) (calls : List Operation) :
    ((empty role).after calls).Reflects role calls ∧
      ∀ r, ofList role calls = .ok r ↔
        (empty role).accepted calls = calls ∧ r = (empty role).after calls :=
  ⟨reflects_after role calls, fun _ => foldlM_register_eq_ok_iff⟩

end RecordRules.Registry
