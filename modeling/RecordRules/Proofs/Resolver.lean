import RecordRules.Proofs.Rule.Pruning
import RecordRules.Proofs.Ty.Admission

/-!
# What resolves

What is known of an operation that resolves on a field, and of the arguments that it takes.  Every
filter of a normalized rule resolves and has such arguments (`resolves_of_normalize`).
-/

namespace RecordRules

namespace Resolver

variable {r : Resolver} {op : StandardOperation}

/-! ## Fields -/

/-- A field has the type to which its path leads in the schema. -/
theorem fieldType_eq_ok_iff {path : Path} {t : Ty} :
    r.fieldType path = .ok t ↔ r.schema.atPath? path = some t := by
  unfold fieldType
  cases r.schema.atPath? path <;> simp

/-- An operation that applies to a field has a first parameter, for which the field passes. -/
theorem checkFirstParam_eq_ok {t : Ty} (h : r.checkFirstParam op t = .ok ()) :
    ∃ first, op.signature.firstParam? = some first ∧ r.oracle first t = true := by
  unfold checkFirstParam at h
  cases hfirst : op.signature.firstParam? with
  | none => simp [hfirst] at h
  | some first =>
    refine ⟨first, rfl, ?_⟩
    by_contra horacle
    simp [hfirst, horacle] at h

/-- A name resolves on a field when an operation has it, the field is there, the operation has an
instance for its type, and the field passes for the first parameter. -/
theorem resolve_eq_ok_iff {name : String} {path : Path} :
    r.resolve name path = .ok op ↔
      ∃ found t, r.registry.get? name = some found ∧ r.schema.atPath? path = some t ∧
        r.instanceFor found t = .ok op ∧ r.checkFirstParam op t = .ok () := by
  unfold resolve
  cases r.registry.get? name with
  | none => simp
  | some found =>
    simp only [RecordRules.bind_eq_ok_iff, pure_eq_ok_iff, fieldType_eq_ok_iff, Option.some.injEq]
    constructor
    · rintro ⟨t, ht, op, hop, _, hfirst, rfl⟩
      exact ⟨found, t, rfl, ht, hop, hfirst⟩
    · rintro ⟨_, t, rfl, ht, hop, hfirst⟩
      exact ⟨t, ht, op, hop, (), hfirst, rfl⟩

/-- An instance is guarded by the operation and runs as it does. -/
theorem instantiate?_eq_some {g : GenericOperation} {role : Role} {t : Ty}
    (h : g.instantiate? role t = some op) :
    g.guard t = true ∧ op.signature = g.signatureFor t ∧ op.run = g.run ∧
      op.skipValidate = g.skipValidate := by
  unfold GenericOperation.instantiate? at h
  split at h
  · next hguard =>
    obtain rfl := Option.some.inj h
    exact ⟨(Bool.and_eq_true_iff.1 hguard).1, rfl, rfl, rfl⟩
  · cases h

/-- A generic operation is instantiated only with a signature that fits the role. -/
theorem accepts_of_instantiate? {g : GenericOperation} {role : Role} {t : Ty}
    (h : g.instantiate? role t = some op) : role.accepts op.signature = true := by
  unfold GenericOperation.instantiate? at h
  split at h
  · next hguard =>
    obtain rfl := Option.some.inj h
    exact (Bool.and_eq_true_iff.1 hguard).2
  · cases h

/-- The instance of a generic operation is the one for the role of the registry. -/
theorem instanceFor_generic_eq_ok_iff {g : GenericOperation} {t : Ty} :
    r.instanceFor (.generic g) t = .ok op ↔ g.instantiate? r.registry.role t = some op := by
  simp only [instanceFor]
  cases g.instantiate? r.registry.role t <;> simp

/-- So it is guarded by the operation and runs as it does. -/
theorem instanceFor_generic_eq_ok {g : GenericOperation} {t : Ty}
    (h : r.instanceFor (.generic g) t = .ok op) :
    g.guard t = true ∧ op.signature = g.signatureFor t ∧ op.run = g.run ∧
      op.skipValidate = g.skipValidate :=
  instantiate?_eq_some (instanceFor_generic_eq_ok_iff.1 h)

/-! ## Arguments -/

/-- As many arguments as parameters are all good when each parameter admits its own. -/
theorem badArgument?_eq_none_iff {i : Nat} {params : List Ty} {arguments : List Value}
    (hlength : params.length = arguments.length) : badArgument? i params arguments = none ↔
      List.Forall₂ (fun t v => t.admits v = true) params arguments := by
  induction params generalizing i arguments with
  | nil =>
    obtain rfl := List.length_eq_zero_iff.1 hlength.symm
    simp [badArgument?]
  | cons t ts ih =>
    cases arguments with
    | nil => cases hlength
    | cons v vs =>
      rw [badArgument?, List.forall₂_cons, ← ih (i := i + 1) (Nat.succ.inj hlength)]
      cases t.admits v <;> simp

/-- Arguments are taken without a look or go one by one with the parameters after the first. -/
theorem checkArguments_eq_ok_iff {arguments : List Value} : checkArguments op arguments = .ok () ↔
    op.skipValidate = true ∨
      List.Forall₂ (fun t v => t.admits v = true) op.signature.restParams arguments := by
  unfold checkArguments
  dsimp only
  split
  · next hskip => simp [hskip]
  · next hskip =>
    split
    · next hlength =>
      simp only [reduceCtorEq, hskip, false_or, false_iff]
      exact fun h => hlength h.length_eq
    · next hlength =>
      rw [← badArgument?_eq_none_iff (i := 0) (not_not.1 hlength)]
      cases badArgument? 0 op.signature.restParams arguments <;> simp [hskip]

/-- Arguments that are looked at go one by one with the parameters. -/
theorem checkArguments_eq_ok {arguments : List Value} (hskip : op.skipValidate = false)
    (h : checkArguments op arguments = .ok ()) :
    List.Forall₂ (fun t v => t.admits v = true) op.signature.restParams arguments :=
  (checkArguments_eq_ok_iff.1 h).resolve_left (by simp [hskip])

/-! ## Filters -/

/-- The operation of the filter resolves on its field and takes its arguments. -/
def Resolves (r : Resolver) (f : Filter) : Prop :=
  ∃ op, r.resolve f.operation f.path = .ok op ∧ checkArguments op f.arguments = .ok ()

end Resolver

/-- The draft with a flag, which does not invert if the draft has none. -/
def Draft.settle (f : Draft) : Draft := { f with invert := some (f.invert.getD false) }

namespace Resolver

variable {r : Resolver}

/-- A draft becomes the filter that it proposes, provided that the filter resolves. -/
theorem checkDraft_eq_ok_iff {d : Draft} {f : Filter} :
    r.checkDraft d = .ok f ↔ d.settle = f.toDraft ∧ r.Resolves f := by
  obtain ⟨id, path, operation, arguments, invert⟩ := d
  obtain ⟨id', path', operation', arguments', invert'⟩ := f
  cases operation with
  | none => simp [checkDraft, Draft.settle, Filter.toDraft]
  | some name =>
    cases path with
    | none => simp [checkDraft, Draft.settle, Filter.toDraft]
    | some path =>
      simp only [checkDraft, Draft.settle, Filter.toDraft, Resolves, RecordRules.bind_eq_ok_iff,
        pure_eq_ok_iff, Filter.mk.injEq, Draft.mk.injEq, Option.some.injEq]
      constructor
      · rintro ⟨op, hop, _, harguments, rfl, rfl, rfl, rfl, rfl⟩
        exact ⟨⟨rfl, rfl, rfl, rfl, rfl⟩, op, hop, harguments⟩
      · rintro ⟨⟨rfl, rfl, rfl, rfl, rfl⟩, op, hop, harguments⟩
        exact ⟨op, hop, (), harguments, rfl, rfl, rfl, rfl, rfl⟩

/-- A filter that resolves is the filter that it proposes as a draft. -/
theorem checkDraft_toDraft {f : Filter} (h : r.Resolves f) : r.checkDraft f.toDraft = .ok f :=
  checkDraft_eq_ok_iff.2 ⟨rfl, h⟩

/-- All filters of a normalized rule resolve. -/
theorem resolves_of_normalize {d : Rule Draft} {s : Rule Filter} (h : r.normalize d = .ok s)
    {f : Filter} (hf : f ∈ s.leaves) : r.Resolves f := by
  obtain ⟨d, -, hd⟩ := Rule.made_of_prune h f hf
  exact (checkDraft_eq_ok_iff.1 hd).2

end Resolver

namespace BoundFilter

variable {f : BoundFilter} {record : Value}

/-- A filter inverts a boolean that its operation answers. -/
theorem test_of_run {b : Bool}
    (h : f.operation.run (record.atPath f.path :: f.arguments) = .ok (.bool b)) :
    f.test record = .ok (b != f.invert) := by
  rw [test, answer, h]
  rfl

/-- A filter passes a failure on with its own id and the name of the operation. -/
theorem test_of_run_error {cause : OperationError}
    (h : f.operation.run (record.atPath f.path :: f.arguments) = .error cause) :
    f.test record = .error (.operation f.operation.name f.id cause) := by
  rw [test, answer, h]
  rfl

end BoundFilter

namespace Resolver

variable {r : Resolver}

/-- A filter is bound to the operation that its name resolves to. -/
theorem bind_eq_ok_iff {f : Filter} {b : BoundFilter} :
    r.bind f = .ok b ↔ ∃ op, r.resolve f.operation f.path = .ok op ∧
      b = ⟨f.id, f.path, op, f.arguments, f.invert⟩ := by
  unfold Resolver.bind
  cases r.resolve f.operation f.path <;> simp [eq_comm]

/-- A rule whose filters resolve compiles, each filter to its operation on its path. -/
theorem exists_compileFilter_eq_ok {s : Rule Filter} (h : ∀ f ∈ s.leaves, r.Resolves f) :
    ∃ bound, r.compileFilter s = .ok ⟨some bound, .default⟩ ∧ Rule.Made r.bind bound s := by
  have hbind : ∀ f ∈ s.leaves, ∃ b, r.bind f = .ok b := by
    intro f hf
    obtain ⟨op, hop, -⟩ := h f hf
    exact ⟨_, bind_eq_ok_iff.2 ⟨op, hop, rfl⟩⟩
  obtain ⟨bound, hbound⟩ := Rule.exists_traverse_eq_ok_iff.2 hbind
  refine ⟨bound, ?_, Rule.made_of_traverse hbound⟩
  rw [compileFilter, hbound]
  rfl

end Resolver

end RecordRules
