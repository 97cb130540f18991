import RecordRules.Proofs.Sorting
import RecordRules.Proofs.Ty.Preorder

/-!
# The order of values and the types that have it

Where values compare they are in order: the other way round they compare the other way, and going
up twice is going up (`compareValues_partial_order`).

The ready-made comparisons apply to a type if each of its members has an order.  Values of two
members compare only if they are of one kind, which the guard does not ask for, so the comparisons
never fail on the values of a type exactly if it is of one kind (`Builtins.ordered_total_iff`).
-/

namespace RecordRules

namespace Value

variable {u v w : Value} {o p : Ordering}

/-! ## Where values compare -/

/-- Two values compare in one way only. -/
theorem Compares.unique (h : v.Compares w o) (h' : v.Compares w p) : o = p :=
  Option.some.inj ((cmp?_of_compares h).symm.trans (cmp?_of_compares h'))

/-- How two values compare may be read either way. -/
theorem compares_iff_swap : v.Compares w o ↔ w.Compares v o.swap := by
  constructor
  · exact Compares.swap
  · intro h
    simpa using h.swap

/-- No way up leads back down. -/
theorem Compares.not_lt (huv : u.Compares v o) (ho : o.isLE = true) (hvw : v.Compares w p)
    (hp : p.isLE = true) : ¬ w.Compares u .lt := by
  intro hwu
  obtain ⟨q, huw, hq⟩ := huv.trans ho hvw hp
  obtain rfl := huw.unique hwu.swap
  cases hq

/-- Going up twice is strict exactly if one of the steps is. -/
theorem Compares.trans_then (huv : u.Compares v o) (ho : o.isLE = true) (hvw : v.Compares w p)
    (hp : p.isLE = true) : u.Compares w (o.then p) := by
  obtain ⟨q, huw, hq⟩ := huv.trans ho hvw hp
  -- each other answer would close a circle with a strict step in it
  suffices hthen : q = o.then p by rwa [hthen] at huw
  cases o with
  | gt => cases ho
  | lt =>
    cases q with
    | lt => rfl
    | gt => cases hq
    | eq => exact absurd huv (hvw.not_lt hp huw.swap rfl)
  | eq =>
    cases p with
    | gt => cases hp
    | lt =>
      cases q with
      | lt => rfl
      | gt => cases hq
      | eq => exact absurd hvw (huw.swap.not_lt rfl huv rfl)
    | eq =>
      cases q with
      | eq => rfl
      | gt => cases hq
      | lt => exact absurd huw (hvw.swap.not_lt rfl huv.swap rfl)

/-- The values that compare with themselves are the scalars. -/
theorem compares_self_iff : v.Compares v .eq ↔ v.isScalar = true := by
  constructor
  · intro h
    cases v with
    | list | record => cases cmp?_of_compares h
    | _ => rfl
  · intro h
    by_cases hnull : v = null
    · subst hnull
      exact .nulls
    · obtain ⟨k, hk⟩ := exists_kind_of_isScalar h hnull
      obtain ⟨o, ho⟩ := exists_compares_of_kind hk hk
      have hswap : o = o.swap := ho.unique ho.swap
      cases o with
      | eq => exact ho
      | lt | gt => cases hswap

end Value

/-- Values compare in one direction as in the other, reversed.  From values in ascending order it
follows that the first and the last compare, strictly so if one of the two steps is strict.  A value
ties with itself unless it is a list or a record, and numbers go by what they are worth. -/
theorem compareValues_partial_order (a b c : Value) :
    (∀ o, compareValues a b = .ok o ↔ compareValues b a = .ok o.swap) ∧
    (∀ o p, compareValues a b = .ok o → compareValues b c = .ok p → o.isLE = true →
      p.isLE = true → compareValues a c = .ok (o.then p)) ∧
    (compareValues a a = .ok .eq ↔ a.isScalar = true) ∧
    ∀ x y, a.worth? = some x → b.worth? = some y → compareValues a b = .ok (compare x y) := by
  simp only [compareValues_eq_ok_iff]
  refine ⟨fun o => Value.compares_iff_swap, ?_, Value.compares_self_iff, ?_⟩
  · intro o p hab hbc ho hp
    exact hab.trans_then ho hbc hp
  · intro x y hx hy
    exact .numbers hx hy

/-- The largest whole number, the same number as a decimal, and a decimal a little above it. -/
theorem compareValues_partial_order_largest :
    let a : Value := .int 9223372036854775807
    let b : Value := .decimal ⟨false, 92233720368547758070, 1, by decide, by decide⟩
    let c : Value := .decimal ⟨false, 922337203685477580701, 2, by decide, by decide⟩
    (compareValues a b = .ok .eq ∧ compareValues b c = .ok .lt) ∧
      compareValues b a = .ok .eq ∧ compareValues a c = .ok .lt ∧ compareValues c c = .ok .eq ∧
      ∃ x y, a.worth? = some x ∧ c.worth? = some y ∧ compareValues a c = .ok (compare x y) := by
  intro a b c
  have hab : compareValues a b = .ok .eq := rfl
  have hbc : compareValues b c = .ok .lt := rfl
  obtain ⟨hswap, htrans, -⟩ := compareValues_partial_order a b c
  obtain ⟨-, -, hself, -⟩ := compareValues_partial_order c c c
  obtain ⟨-, -, -, hworth⟩ := compareValues_partial_order a c c
  exact ⟨⟨hab, hbc⟩, (hswap _).1 hab, htrans _ _ hab hbc rfl rfl, hself.2 rfl, _, _, rfl, rfl,
    hworth _ _ rfl rfl⟩

/-! ## Types of one kind -/

namespace Ty

variable {t x : Ty} {v w : Value} {k : Value.Kind}

/-- The kind of the values of a type that is no union, apart from `null`. -/
def valueKind? : Ty → Option Value.Kind
  | bool => some .bool
  | int | decimal => some .number
  | text => some .text
  | date => some .date
  | dateTime => some .dateTime
  | literal v => v.kind?
  | _ => none

/-- The kinds of the values of a type, apart from `null`. -/
def valueKinds (t : Ty) : List Value.Kind := t.alternatives.filterMap valueKind?

/-- All values of the type but `null` are of one kind. -/
def OneKind (t : Ty) : Prop := ∀ k ∈ t.valueKinds, ∀ l ∈ t.valueKinds, k = l

instance : DecidablePred OneKind := fun t =>
  inferInstanceAs (Decidable (∀ k ∈ t.valueKinds, ∀ l ∈ t.valueKinds, k = l))

/-- The kinds of a type are those of its alternatives. -/
theorem mem_valueKinds_iff : k ∈ t.valueKinds ↔ ∃ x ∈ t.alternatives, x.valueKind? = some k := by
  rw [valueKinds, List.mem_filterMap]

/-- A value of a type is one of an alternative. -/
theorem admits_iff_exists_alternative :
    t.admits v = true ↔ ∃ x ∈ t.alternatives, x.admits v = true := by
  induction t with
  | union members ih =>
    simp only [union_admits_iff, mem_alternatives_union_iff]
    constructor
    · rintro ⟨m, hm, hv⟩
      obtain ⟨x, hx, hv⟩ := (ih m hm).1 hv
      exact ⟨x, ⟨m, hm, hx⟩, hv⟩
    · rintro ⟨x, ⟨m, hm, hx⟩, hv⟩
      exact ⟨m, hm, (ih m hm).2 ⟨x, hx, hv⟩⟩
  | _ => simp [alternatives]

/-- The alternatives of an orderable type are orderable, or `null`. -/
theorem isOrderable_of_mem_alternatives (ht : t.isOrderable = true) (hx : x ∈ t.alternatives) :
    x = null ∨ x.isOrderable = true := by
  induction t with
  | union members ih =>
    obtain ⟨m, hm, hx⟩ := mem_alternatives_union_iff.1 hx
    rw [isOrderable, Bool.and_eq_true, allOrderable_iff] at ht
    rcases ht.2 m hm with hnull | horderable
    · rw [isNull_iff] at hnull
      subst hnull
      exact .inl (List.mem_singleton.1 hx)
    · exact ih m hm horderable hx
  | _ =>
    obtain rfl := List.mem_singleton.1 hx
    exact .inr ht

/-- The values of an orderable type that is no union are of its kind. -/
theorem null_or_kind?_of_admits (hx : x.isOrderable = true) (hunion : x.isUnion = false)
    (hv : x.admits v = true) : v = .null ∨ ∃ k, x.valueKind? = some k ∧ v.kind? = some k := by
  cases x with
  | int =>
    obtain ⟨i, rfl⟩ := int_admits_iff.1 hv
    exact .inr ⟨_, rfl, rfl⟩
  | decimal =>
    refine .inr ⟨.number, rfl, ?_⟩
    rcases decimal_admits_iff.1 hv with ⟨d, rfl⟩ | ⟨i, rfl⟩ <;> rfl
  | text =>
    obtain ⟨s, rfl⟩ := text_admits_iff.1 hv
    exact .inr ⟨_, rfl, rfl⟩
  | date =>
    obtain ⟨d, rfl⟩ := date_admits_iff.1 hv
    exact .inr ⟨_, rfl, rfl⟩
  | dateTime =>
    obtain ⟨t, rfl⟩ := dateTime_admits_iff.1 hv
    exact .inr ⟨_, rfl, rfl⟩
  | literal u =>
    have huv := literal_admits_iff.1 hv
    by_cases hnull : u = .null
    · subst hnull
      exact .inl (Value.null_beq_iff.1 huv)
    · obtain ⟨k, hk⟩ := Value.exists_kind_of_isScalar (literal_isOrderable_iff.1 hx) hnull
      refine .inr ⟨k, hk, ?_⟩
      rwa [← Value.kind?_eq_of_beq huv]
  | union => cases hunion
  | any | null | bool | list | tuple | record => simp [isOrderable] at hx

/-- The values of an orderable type other than `null` are of its kinds. -/
theorem null_or_kind?_mem_valueKinds (ht : t.isOrderable = true) (hv : t.admits v = true) :
    v = .null ∨ ∃ k ∈ t.valueKinds, v.kind? = some k := by
  obtain ⟨x, hx, hv⟩ := admits_iff_exists_alternative.1 hv
  rcases isOrderable_of_mem_alternatives ht hx with rfl | horderable
  · exact .inl (null_admits_iff.1 hv)
  · have hunion := not_isUnion_of_mem_alternatives hx
    rcases null_or_kind?_of_admits horderable hunion hv with hnull | ⟨k, hk, hvk⟩
    · exact .inl hnull
    · exact .inr ⟨k, mem_valueKinds_iff.2 ⟨x, hx, hk⟩, hvk⟩

/-- Each kind is that of a value. -/
theorem exists_admits_of_valueKind? (h : x.valueKind? = some k) :
    ∃ v, x.admits v = true ∧ v.kind? = some k := by
  have d : Date := ⟨2000, 1, 1, by decide⟩
  cases x with
  | bool => exact ⟨.bool true, rfl, h⟩
  | int => exact ⟨.int 0, rfl, h⟩
  | decimal => exact ⟨.int 0, rfl, h⟩
  | text => exact ⟨.text "", rfl, h⟩
  | date => exact ⟨.date d, rfl, h⟩
  | dateTime => exact ⟨.dateTime ⟨d, 0, 0, 0, 0, 0, by decide⟩, rfl, h⟩
  | literal v => exact ⟨v, literal_admits_iff.2 v.beq_refl, h⟩
  | any | null | union | list | tuple | record => cases h

/-- Any two values of an orderable type compare exactly if the type is of one kind. -/
theorem oneKind_iff (ht : t.isOrderable = true) :
    t.OneKind ↔ ∀ v w, t.admits v = true → t.admits w = true → ∃ o, v.Compares w o := by
  constructor
  · intro h v w hv hw
    refine Value.exists_compares ?_
    rcases null_or_kind?_mem_valueKinds ht hv with hnull | ⟨k, hk, hvk⟩
    · exact .inl hnull
    · rcases null_or_kind?_mem_valueKinds ht hw with hnull | ⟨l, hl, hwl⟩
      · exact .inr (.inl hnull)
      · obtain rfl := h k hk l hl
        exact .inr (.inr ⟨k, hvk, hwl⟩)
  · intro h k hk l hl
    obtain ⟨x, hx, hxk⟩ := mem_valueKinds_iff.1 hk
    obtain ⟨y, hy, hyl⟩ := mem_valueKinds_iff.1 hl
    obtain ⟨v, hv, hvk⟩ := exists_admits_of_valueKind? hxk
    obtain ⟨w, hw, hwl⟩ := exists_admits_of_valueKind? hyl
    obtain ⟨o, ho⟩ := h v w (admits_iff_exists_alternative.2 ⟨x, hx, hv⟩)
      (admits_iff_exists_alternative.2 ⟨y, hy, hw⟩)
    rcases Value.exists_cmp?_iff.1 ⟨o, Value.cmp?_of_compares ho⟩ with rfl | rfl | ⟨m, hvm, hwm⟩
    · cases hvk
    · cases hwl
    · rw [hvm] at hvk
      rw [hwm] at hwl
      exact Option.some.inj (hvk.symm.trans hwl)

end Ty

/-! ## The guard of the comparisons -/

/-- A ready-made comparison resolves on every field whose type its guard accepts. -/
theorem Resolver.exists_resolve_comparison {r : Resolver} (horacle : r.oracle = Ty.accepts)
    {name : String} {guard : Ty → Bool} {returns : Ty}
    {run : Value → Value → Except OperationError Value}
    (hget : r.registry.get? name = some (Builtins.comparison name guard returns run))
    {path : Path} {t : Ty} (hpath : r.schema.atPath? path = some t) (hguard : guard t = true)
    (hrole : r.registry.role.accepts ⟨[t, t], returns⟩ = true) :
    ∃ op, r.resolve name path = .ok op ∧ op.name = name ∧ op.signature = ⟨[t, t], returns⟩ ∧
      op.run = (Builtins.comparison name guard returns run).run ∧ op.skipValidate = false := by
  let op : StandardOperation :=
    { name
      signature := ⟨[t, t], returns⟩
      run := (Builtins.comparison name guard returns run).run
      skipValidate := false
      notes := []
      origin := some ⟨name, t⟩ }
  have hinstance : r.instanceFor (Builtins.comparison name guard returns run) t = .ok op := by
    refine instanceFor_generic_eq_ok_iff.2 (if_pos ?_)
    rw [Bool.and_eq_true]
    exact ⟨hguard, hrole⟩
  have hfirst : r.checkFirstParam op t = .ok () := by
    refine if_pos ?_
    rw [horacle]
    exact t.accepts_self
  exact ⟨op, resolve_eq_ok_iff.2 ⟨_, t, hget, hpath, hinstance, hfirst⟩, rfl, rfl, rfl, rfl⟩

namespace Builtins

variable {g : GenericOperation} {t : Ty}

/-- A comparison by order has a result exactly where the values compare. -/
theorem exists_run_ordered_iff (hg : .generic g ∈ [compare, greaterThan, lessThan]) (v w : Value) :
    (∃ u, g.run [v, w] = .ok u) ↔ ∃ o, v.Compares w o := by
  have hbind (f : Ordering → Value) :
      (∃ u, (compareValues v w >>= fun o => pure (f o)) = .ok u) ↔ ∃ o, v.Compares w o := by
    simp only [RecordRules.bind_eq_ok_iff, pure_eq_ok_iff, compareValues_eq_ok_iff]
    constructor
    · rintro ⟨-, o, ho, -⟩
      exact ⟨o, ho⟩
    · rintro ⟨o, ho⟩
      exact ⟨f o, o, ho, rfl⟩
  simp only [List.mem_cons, List.not_mem_nil, or_false] at hg
  rcases hg with hg | hg | hg
  · obtain rfl := Operation.generic.inj hg
    exact hbind .ofOrdering
  · obtain rfl := Operation.generic.inj hg
    exact hbind fun o => .bool (o == .gt)
  · obtain rfl := Operation.generic.inj hg
    exact hbind fun o => .bool (o == .lt)

/-- The three operations on an order share their guard. -/
theorem guard_ordered (hg : .generic g ∈ [compare, greaterThan, lessThan]) :
    g.guard = Ty.isOrderable := by
  simp only [List.mem_cons, List.not_mem_nil, or_false] at hg
  rcases hg with hg | hg | hg <;> rw [Operation.generic.inj hg]

/-- On a type that the guard of a comparison by order accepts, any two values compare exactly if
the type is of one kind, and that is also when the comparison, wherever it resolves on a field of
the type, fails on no two values of the field. -/
theorem ordered_total_iff (hg : .generic g ∈ [compare, greaterThan, lessThan])
    (ht : g.guard t = true) :
    (t.OneKind ↔ ∀ v w, t.admits v = true → t.admits w = true → ∃ o, compareValues v w = .ok o) ∧
    ∀ (r : Resolver) name path op, r.registry.get? name = some (.generic g) →
      r.schema.atPath? path = some t → r.resolve name path = .ok op →
      (t.OneKind ↔
        ∀ v w, t.admits v = true → t.admits w = true → ∃ u, op.run [v, w] = .ok u) := by
  rw [guard_ordered hg] at ht
  constructor
  · simp only [compareValues_eq_ok_iff]
    exact Ty.oneKind_iff ht
  · intro r name path op hget hpath hop
    obtain ⟨found, t', hfound, ht', hinstance, -⟩ := Resolver.resolve_eq_ok_iff.1 hop
    -- the name resolves to an instance of the very operation, which runs as it does
    obtain rfl := Option.some.inj (hget.symm.trans hfound)
    obtain ⟨-, -, hrun, -⟩ := Resolver.instanceFor_generic_eq_ok hinstance
    simp only [hrun, exists_run_ordered_iff hg]
    exact Ty.oneKind_iff ht

/-- A number that is 1, another one, or missing. -/
theorem ordered_total_iff_numbers : ∃ (g : GenericOperation) (r : Resolver) (op : StandardOperation)
    (t : Ty), .generic g ∈ [compare, greaterThan, lessThan] ∧
    t = .union [.literal (.int 1), .optional .decimal] ∧ g.guard t = true ∧
    r.registry.get? "compare" = some (.generic g) ∧ r.schema.atPath? [.field "n"] = some t ∧
    r.resolve "compare" [.field "n"] = .ok op ∧ t.OneKind ∧
    (∀ v w, t.admits v = true → t.admits w = true → ∃ o, compareValues v w = .ok o) ∧
    ∀ v w, t.admits v = true → t.admits w = true → ∃ u, op.run [v, w] = .ok u := by
  obtain ⟨registry, hregistry⟩ : ∃ registry, Registry.builtinSorts = .ok registry := ⟨_, rfl⟩
  have hget : registry.get? "compare" = some compare := Registry.get?_of_ofList hregistry (.head _)
  let t : Ty := .union [.literal (.int 1), .optional .decimal]
  let r : Resolver := ⟨registry, .record [("n", t)], Ty.accepts⟩
  have hrole : registry.role = .sort := (Registry.ofList_eq_ok hregistry).2.1
  have hpath : r.schema.atPath? [.field "n"] = some t := rfl
  obtain ⟨op, hop, -⟩ := r.exists_resolve_comparison rfl hget hpath rfl (by rw [hrole]; rfl)
  obtain ⟨g, hg⟩ : ∃ g, compare = .generic g := ⟨_, rfl⟩
  have hmem : .generic g ∈ [compare, greaterThan, lessThan] := hg ▸ .head _
  have hguard : g.guard t = true := by rw [guard_ordered hmem]; rfl
  have hkind : t.OneKind := by decide
  obtain ⟨hvalues, hfields⟩ := ordered_total_iff hmem hguard
  rw [hg] at hget
  exact ⟨g, r, op, t, hmem, rfl, hguard, hget, hpath, hop, hkind, hvalues.1 hkind,
    (hfields r _ _ op hget hpath hop).1 hkind⟩

end Builtins

namespace Resolver

/-- The guard lets the comparison apply to a field with numbers and text, which do not compare. -/
theorem exists_sortData_cannot_compare : ∃ (r : Resolver) (rule : SortRule) (records : List Value),
    Registry.builtinSorts = .ok r.registry ∧ r.schema = .record [("x", .union [.int, .text])] ∧
    (Ty.union [.int, .text]).isOrderable = true ∧
    rule = [⟨[.field "x"], "compare", .asc⟩] ∧
    records = [.recordOf [("x", .int 1)], .recordOf [("x", .text "a")]] ∧
    (∀ record ∈ records, r.schema.admits record = true) ∧ (∃ c, r.compileSort rule = .ok c) ∧
    compareValues (.text "a") (.int 1) = .error (.failed "cannot compare Text with Int") ∧
    r.sortData rule records = .error (.comparator "compare" [.field "x"]
      (.failed "cannot compare Text with Int")) := by
  obtain ⟨registry, hregistry⟩ : ∃ registry, Registry.builtinSorts = .ok registry := ⟨_, rfl⟩
  let t : Ty := .union [.int, .text]
  let r : Resolver := ⟨registry, .record [("x", t)], Ty.accepts⟩
  have hget : registry.get? "compare" = some Builtins.compare :=
    Registry.get?_of_ofList hregistry (.head _)
  have hrole : registry.role = .sort := (Registry.ofList_eq_ok hregistry).2.1
  have hpath : r.schema.atPath? [.field "x"] = some t := rfl
  obtain ⟨⟨name, signature, run, skip, notes, origin⟩, hop, rfl, -, rfl, -⟩ :=
    r.exists_resolve_comparison rfl hget hpath rfl (by rw [hrole]; rfl)
  have hc : r.compileSort [⟨[.field "x"], "compare", .asc⟩] = .ok ⟨[⟨[.field "x"], _, .asc⟩]⟩ :=
    compileSort_eq_ok_iff.2 (.cons (bindItem_eq_ok_iff.2 ⟨_, hop, rfl⟩) .nil)
  refine ⟨r, _, _, hregistry, rfl, rfl, rfl, rfl, ?_, ⟨_, hc⟩, rfl, ?_⟩
  · simp only [List.forall_mem_cons, List.not_mem_nil, false_imp_iff, implies_true]
    exact ⟨rfl, rfl, trivial⟩
  · rw [sortData, hc]
    rfl

end Resolver

end RecordRules
