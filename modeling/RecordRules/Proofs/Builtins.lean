import RecordRules.Builtins
import RecordRules.Proofs.Resolver
import RecordRules.Proofs.Ty.Coverage
import RecordRules.Proofs.Ty.Paths
import RecordRules.Proofs.Value.Order

/-!
# The ready-made operations on values of their types

The values of an orderable type are of one kind (`Ty.exists_kind`), so they compare, and so does
`null` with each of them.  So a ready-made predicate answers with a boolean wherever it resolves
(`Builtins.exists_answer`), except that `contains` does not take `null`.
-/

namespace RecordRules

/-- The comparison of the ready-made operations succeeds where values compare. -/
theorem compareValues_eq_ok_iff {v w : Value} {o : Ordering} :
    compareValues v w = .ok o ↔ v.Compares w o := by
  rw [← Value.cmp?_eq_some_iff, compareValues]
  cases v.cmp? w <;> simp

/-- Equal values are of one kind. -/
theorem Value.kind?_eq_of_beq {v w : Value} (h : (v == w) = true) : v.kind? = w.kind? := by
  cases v with
  | null => rw [null_beq_iff.1 h]
  | bool b => rw [bool_beq_iff.1 h]
  | int i => rw [int_beq_iff.1 h]
  | text s => rw [text_beq_iff.1 h]
  | date d => rw [date_beq_iff.1 h]
  | decimal d =>
    obtain ⟨e, rfl, -⟩ := decimal_beq_iff.1 h
    rfl
  | dateTime t =>
    obtain ⟨u, rfl, -⟩ := dateTime_beq_iff.1 h
    rfl
  | list items =>
    obtain ⟨items', rfl, -⟩ := list_beq_iff.1 h
    rfl
  | record fields =>
    obtain ⟨fields', rfl, -⟩ := record_beq_iff.1 h
    rfl

/-! ## Orderable types -/

namespace Ty

variable {t : Ty} {v w : Value}

/-- The members of an orderable union are orderable or `null`. -/
theorem allOrderable_iff {ts : List Ty} :
    allOrderable ts = true ↔ ∀ t ∈ ts, t.isNull = true ∨ t.isOrderable = true := by
  induction ts with
  | nil => simp [allOrderable]
  | cons t rest ih => simp [allOrderable, ih]

/-- The only member besides `null` of an orderable union is orderable. -/
theorem isOrderable_of_proper {members : List Ty} (h : (union members).isOrderable = true)
    {m : Ty} (hm : proper members = [m]) : m.isOrderable = true := by
  rw [isOrderable, Bool.and_eq_true, allOrderable_iff] at h
  obtain ⟨hmem, hnull⟩ := List.mem_filter.1 (hm ▸ List.mem_singleton_self m : m ∈ proper members)
  refine (h.2 m hmem).resolve_left ?_
  simpa using hnull

/-- A literal is orderable when its value is a scalar. -/
theorem literal_isOrderable_iff {u : Value} :
    (literal u).isOrderable = true ↔ u.isScalar = true := by
  cases u <;> simp [isOrderable, Value.isScalar]

/-- The values of an orderable literal are of one kind, or `null`. -/
theorem exists_kind_of_literal {u : Value} (h : (literal u).isOrderable = true) :
    ∃ k, ∀ v, (u == v) = true → v = .null ∨ v.kind? = some k := by
  by_cases hnull : u = .null
  · subst hnull
    refine ⟨.bool, fun v hv => .inl ?_⟩
    exact Value.null_beq_iff.1 hv
  · obtain ⟨k, hk⟩ := Value.exists_kind_of_isScalar (literal_isOrderable_iff.1 h) hnull
    refine ⟨k, fun v hv => .inr ?_⟩
    rwa [← Value.kind?_eq_of_beq hv]

/-- All values of an orderable type but `null` are of one kind, if unions only make parts
optional. -/
theorem exists_kind (ht : t.isOrderable = true) (hproper : t.unionsProper = true) :
    ∃ k, ∀ v, t.admits v = true → v = .null ∨ v.kind? = some k := by
  induction t with
  | int =>
    refine ⟨.number, fun v hv => .inr ?_⟩
    obtain ⟨i, rfl⟩ := int_admits_iff.1 hv
    rfl
  | decimal =>
    refine ⟨.number, fun v hv => .inr ?_⟩
    rcases decimal_admits_iff.1 hv with ⟨d, rfl⟩ | ⟨i, rfl⟩ <;> rfl
  | text =>
    refine ⟨.text, fun v hv => .inr ?_⟩
    obtain ⟨s, rfl⟩ := text_admits_iff.1 hv
    rfl
  | date =>
    refine ⟨.date, fun v hv => .inr ?_⟩
    obtain ⟨d, rfl⟩ := date_admits_iff.1 hv
    rfl
  | dateTime =>
    refine ⟨.dateTime, fun v hv => .inr ?_⟩
    obtain ⟨t, rfl⟩ := dateTime_admits_iff.1 hv
    rfl
  | literal u =>
    obtain ⟨k, hk⟩ := exists_kind_of_literal ht
    exact ⟨k, fun v hv => hk v (literal_admits_iff.1 hv)⟩
  | union members ih =>
    -- a union that makes a part optional has one member besides `null`, whose kind it takes
    obtain ⟨m, hmem, hm, hproper⟩ := unionsProper_union hproper
    obtain ⟨k, hk⟩ := ih m hmem (isOrderable_of_proper ht hm) hproper
    refine ⟨k, fun v hv => ?_⟩
    rcases null_or_admits_of_proper hm hv with rfl | hv
    · exact .inl rfl
    · exact hk v hv
  | any | null | bool | list element | tuple items | record fields => simp [isOrderable] at ht

/-- Two values of an orderable type compare, even if they are missing. -/
theorem exists_cmp?_eq_some (ht : t.isOrderable = true) (hproper : t.unionsProper = true)
    (hv : v = .null ∨ t.admits v = true) (hw : w = .null ∨ t.admits w = true) :
    ∃ o, v.cmp? w = some o := by
  obtain ⟨k, hk⟩ := exists_kind ht hproper
  have hv : v = .null ∨ v.kind? = some k := hv.elim .inl (hk v)
  have hw : w = .null ∨ w.kind? = some k := hw.elim .inl (hk w)
  rw [Value.exists_cmp?_iff]
  rcases hv with hv | hv
  · exact .inl hv
  · rcases hw with hw | hw
    · exact .inr (.inl hw)
    · exact .inr (.inr ⟨k, hv, hw⟩)

end Ty

/-! ## Answers -/

namespace Builtins

/-- The ready-made predicates can be registered together. -/
theorem exists_registry : ∃ registry, Registry.builtinFilters = .ok registry := ⟨_, rfl⟩

variable {r : Resolver} {t : Ty} {op : StandardOperation}

/-- A comparison takes the value of the field and one argument, which its type admits. -/
theorem comparison_answer {name : String} {guard : Ty → Bool} {returns : Ty}
    {run : Value → Value → Except OperationError Value}
    (hop : r.instanceFor (comparison name guard returns run) t = .ok op) {arguments : List Value}
    (harguments : Resolver.checkArguments op arguments = .ok ()) (v : Value) :
    guard t = true ∧ ∃ w, t.admits w = true ∧ op.run (v :: arguments) = run v w := by
  obtain ⟨hguard, hsignature, hrun, hskip⟩ := Resolver.instanceFor_generic_eq_ok hop
  have hadmits := Resolver.checkArguments_eq_ok hskip harguments
  rw [hsignature] at hadmits
  obtain ⟨w, rest, hw, hrest, rfl⟩ := List.forall₂_cons_left_iff.1 hadmits
  obtain rfl := List.forall₂_nil_left_iff.1 hrest
  exact ⟨hguard, w, hw, by rw [hrun]⟩

/-- Equality answers on any value, since it compares whatever is put to it. -/
theorem equals_answer (hop : r.instanceFor equals t = .ok op) {arguments : List Value}
    (harguments : Resolver.checkArguments op arguments = .ok ()) (v : Value) :
    ∃ b, op.run (v :: arguments) = .ok (.bool b) := by
  obtain ⟨-, w, -, hrun⟩ := comparison_answer hop harguments v
  exact ⟨_, hrun⟩

/-- The comparisons by order have an answer where values compare. -/
theorem ordered_answer {name : String} {sign : Ordering}
    (hop : r.instanceFor (comparison name Ty.isOrderable .bool fun left right => do
      return .bool ((← compareValues left right) == sign)) t = .ok op) {arguments : List Value}
    (harguments : Resolver.checkArguments op arguments = .ok ())
    (hproper : t.unionsProper = true) {v : Value} (hv : v = .null ∨ t.admits v = true) :
    ∃ b, op.run (v :: arguments) = .ok (.bool b) := by
  obtain ⟨hguard, w, hw, hrun⟩ := comparison_answer hop harguments v
  obtain ⟨o, ho⟩ := Ty.exists_cmp?_eq_some hguard hproper hv (.inr hw)
  refine ⟨o == sign, hrun.trans ?_⟩
  rw [compareValues, ho]
  rfl

/-- Where `contains` is accepted, the field and the argument are text. -/
theorem contains_answer (horacle : r.oracle = Ty.accepts)
    (hop : r.instanceFor contains t = .ok op) (hfirst : r.checkFirstParam op t = .ok ())
    {arguments : List Value} (harguments : Resolver.checkArguments op arguments = .ok ())
    {v : Value} (hv : t.admits v = true) : ∃ b, op.run (v :: arguments) = .ok (.bool b) := by
  obtain rfl := Except.ok.inj hop
  obtain ⟨first, hfirst, haccepts⟩ := Resolver.checkFirstParam_eq_ok hfirst
  obtain rfl : Ty.text = first := Option.some.inj hfirst
  rw [horacle] at haccepts
  obtain ⟨haystack, rfl⟩ := Ty.text_admits_iff.1 (Ty.covers_of_accepts haccepts v hv)
  have hadmits := Resolver.checkArguments_eq_ok rfl harguments
  obtain ⟨w, rest, hw, hrest, rfl⟩ := List.forall₂_cons_left_iff.1 hadmits
  obtain rfl := List.forall₂_nil_left_iff.1 hrest
  obtain ⟨needle, rfl⟩ := Ty.text_admits_iff.1 hw
  exact ⟨_, rfl⟩

/-- The test for emptiness answers on any value. -/
theorem isEmpty_answer (hop : r.instanceFor isEmpty t = .ok op) (v : Value)
    (arguments : List Value) : ∃ b, op.run (v :: arguments) = .ok (.bool b) := by
  obtain rfl := Except.ok.inj hop
  cases v <;> exact ⟨_, rfl⟩

/-- A ready-made predicate that resolves on a field and takes its arguments answers with a
boolean. -/
theorem exists_answer (horacle : r.oracle = Ty.accepts) {found : Operation}
    (hfound : found ∈ filters) (hop : r.instanceFor found t = .ok op)
    (hfirst : r.checkFirstParam op t = .ok ()) {arguments : List Value}
    (harguments : Resolver.checkArguments op arguments = .ok ())
    (hproper : t.unionsProper = true) {v : Value} (hv : v = .null ∨ t.admits v = true)
    (hcontains : found.name = "contains" → t.admits v = true) :
    ∃ b, op.run (v :: arguments) = .ok (.bool b) := by
  simp only [filters, List.mem_cons, List.not_mem_nil, or_false] at hfound
  rcases hfound with rfl | rfl | rfl | rfl | rfl
  · exact equals_answer hop harguments v
  · exact ordered_answer hop harguments hproper hv
  · exact ordered_answer hop harguments hproper hv
  · exact contains_answer horacle hop hfirst harguments (hcontains rfl)
  · exact isEmpty_answer hop v arguments

end Builtins

end RecordRules
