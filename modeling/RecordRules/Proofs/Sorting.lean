import RecordRules.Proofs.Builtins
import RecordRules.Proofs.Comparator
import RecordRules.Proofs.Registry

/-!
# Sorting by the ready-made comparison

A sort rule over the ready-made comparison puts the records of its schema in the lexicographic
order of its items, stably and without failure (`exists_sortData_eq_ok`).  Unions in the schema
have to stand for optional parts, so that all values of a part compare.
-/

namespace RecordRules

open StableOrder

/-! ## The comparison of values -/

/-- Values that all compare do so lawfully. -/
theorem lawful_compareValues {vs : List Value}
    (h : ∀ v ∈ vs, ∀ w ∈ vs, ∃ o, v.cmp? w = some o) : Lawful compareValues vs where
  succeeds v hv w hw := by
    obtain ⟨o, ho⟩ := h v hv w hw
    exact ⟨o, compareValues_eq_ok_iff.2 (Value.cmp?_eq_some_iff.1 ho)⟩
  swap v hv w hw o ho := compareValues_eq_ok_iff.2 (compareValues_eq_ok_iff.1 ho).swap
  trans u hu v hv w hw huv hvw huw := by
    have hle : ∀ {v w o}, v.cmp? w = some o → compareValues v w ≠ .ok .gt → o.isLE = true := by
      intro v w o ho hgt
      rw [Ordering.isLE_iff_ne_gt]
      rintro rfl
      exact hgt (compareValues_eq_ok_iff.2 (Value.cmp?_eq_some_iff.1 ho))
    obtain ⟨o, ho⟩ := h u hu v hv
    obtain ⟨p, hp⟩ := h v hv w hw
    obtain ⟨q, hq, hqle⟩ := (Value.cmp?_eq_some_iff.1 ho).trans (hle ho huv)
      (Value.cmp?_eq_some_iff.1 hp) (hle hp hvw)
    obtain rfl : q = .gt := by
      have := compareValues_eq_ok_iff.2 hq
      exact Except.ok.inj (this.symm.trans huw)
    cases hqle

/-! ## One item -/

/-- The key compares the values at the path of the item, in its direction. -/
structure SortKey.Sorts (k : SortKey) (i : SortItem) : Prop where
  path : k.path = i.path
  direction : k.direction = i.direction
  run : ∀ v w, k.operation.run [v, w] = (compareValues v w).map .ofOrdering

namespace SortKey.Sorts

variable {k : SortKey} {i : SortItem} {a b : Value} {o : Ordering} {records : List Value}

/-- A key for an item compares two records as the values at its path do, in its direction. -/
theorem compare_eq_ok (h : k.Sorts i)
    (ho : compareValues (a.atPath i.path) (b.atPath i.path) = .ok o) :
    k.compare a b = .ok (i.direction.apply o) := by
  rw [SortKey.compare, h.run, h.path, ho, h.direction]
  cases o <;> rfl

/-- A key for an item is lawful on records whose values at its path are. -/
theorem lawful (h : k.Sorts i)
    (hvalues : Lawful compareValues (records.map (·.atPath i.path))) :
    Lawful k.compare records := by
  have hvalues : Lawful (fun a b => compareValues (a.atPath i.path) (b.atPath i.path)) records :=
    hvalues.comap
  have := hvalues.transCmp
  have hcompare : ∀ x y : Fin records.length, k.compare (records.get x) (records.get y) =
      .ok (i.direction.apply (outcomeAt _ records x y)) := fun x y =>
    h.compare_eq_ok (hvalues.eq_outcome (records.get_mem x) (records.get_mem y))
  exact lawful_of_eq_ok hcompare

end SortKey.Sorts

/-! ## The items of a rule -/

/-- How two records compare by a rule.  The first item whose values differ decides, in its
direction; without one the records tie. -/
inductive SortRule.Compares (a b : Value) : SortRule → Ordering → Prop where
  | nil : Compares a b [] .eq
  | tie {i : SortItem} {rule : SortRule} {o : Ordering} :
      compareValues (a.atPath i.path) (b.atPath i.path) = .ok .eq → Compares a b rule o →
      Compares a b (i :: rule) o
  | decided {i : SortItem} {rule : SortRule} {o : Ordering} :
      compareValues (a.atPath i.path) (b.atPath i.path) = .ok o → o ≠ .eq →
      Compares a b (i :: rule) (i.direction.apply o)

namespace SortRule

variable {rule : SortRule} {keys : List SortKey} {a b : Value} {o : Ordering}
  {records : List Value}

/-- Records whose values all compare do so by a rule. -/
theorem exists_compares
    (h : ∀ i ∈ rule, ∃ o, compareValues (a.atPath i.path) (b.atPath i.path) = .ok o) :
    ∃ o, Compares a b rule o := by
  induction rule with
  | nil => exact ⟨_, .nil⟩
  | cons i rule ih =>
    obtain ⟨⟨o, ho⟩, hrule⟩ := List.forall_mem_cons.1 h
    by_cases htie : o = .eq
    · subst htie
      obtain ⟨p, hp⟩ := ih hrule
      exact ⟨p, .tie ho hp⟩
    · exact ⟨_, .decided ho htie⟩

/-- Comparing by the keys of a rule gives what the items say. -/
theorem Compares.compareBy_eq_ok (h : Compares a b rule o)
    (hkeys : List.Forall₂ (fun i k => k.Sorts i) rule keys) :
    Comparator.compareBy a b keys = .ok o := by
  induction h generalizing keys with
  | nil =>
    cases hkeys
    rfl
  | @tie i rule o ho _ ih =>
    obtain _ | ⟨hk, hkeys⟩ := hkeys
    have htie : i.direction.apply .eq = .eq := by cases i.direction <;> rfl
    rw [Comparator.compareBy, hk.compare_eq_ok ho, htie]
    exact ih hkeys
  | @decided i rule o ho hne =>
    obtain _ | ⟨hk, hkeys⟩ := hkeys
    rw [Comparator.compareBy, hk.compare_eq_ok ho]
    cases o with
    | eq => exact absurd rfl hne
    | lt | gt => cases i.direction <;> rfl

end SortRule

/-! ## Rules over the ready-made comparison -/

namespace Resolver

variable {r : Resolver} {i : SortItem} {k : SortKey} {rule : SortRule} {c : Comparator}
  {records : List Value}

/-- An item is bound to the operation that its name resolves to. -/
theorem bindItem_eq_ok_iff : r.bindItem i = .ok k ↔
    ∃ op, r.resolve i.operation i.path = .ok op ∧ k = ⟨i.path, op, i.direction⟩ := by
  unfold bindItem
  cases r.resolve i.operation i.path <;> simp [eq_comm]

/-- The type at the path of an item that resolves has an order, by which the key compares. -/
theorem bindItem_eq_ok (hregistry : Registry.builtinSorts = .ok r.registry)
    (h : r.bindItem i = .ok k) :
    k.Sorts i ∧ ∃ t, r.schema.atPath? i.path = some t ∧ t.isOrderable = true := by
  obtain ⟨op, hop, rfl⟩ := bindItem_eq_ok_iff.1 h
  obtain ⟨found, t, hfound, ht, hinstance, -⟩ := resolve_eq_ok_iff.1 hop
  obtain ⟨hindexed, -, hoperations⟩ := Registry.ofList_eq_ok hregistry
  have hmem := (hindexed.get?_eq_some hfound).1
  obtain rfl : found = Builtins.compare := by simpa [hoperations, Builtins.sorts] using hmem
  obtain ⟨hguard, -, hrun, -⟩ := instanceFor_generic_eq_ok hinstance
  refine ⟨⟨rfl, rfl, fun v w => ?_⟩, t, ht, hguard⟩
  rw [hrun]
  rfl

/-- The values at the path of an item compare. -/
theorem exists_cmp?_atPath (hregistry : Registry.builtinSorts = .ok r.registry)
    (hunions : r.schema.unionsProper = true) (h : r.bindItem i = .ok k) {a b : Value}
    (ha : r.schema.admits a = true) (hb : r.schema.admits b = true) :
    ∃ o, (a.atPath i.path).cmp? (b.atPath i.path) = some o := by
  obtain ⟨-, t, ht, horderable⟩ := bindItem_eq_ok hregistry h
  exact Ty.exists_cmp?_eq_some horderable (Ty.unionsProper_atPath hunions ht)
    (Ty.null_or_admits_atPath ht ha) (Ty.null_or_admits_atPath ht hb)

/-- A sort rule compiles to the keys of its items, in their order. -/
theorem compileSort_eq_ok_iff :
    r.compileSort rule = .ok c ↔ List.Forall₂ (fun i k => r.bindItem i = .ok k) rule c.keys := by
  rw [compileSort, map_eq_ok_iff]
  constructor
  · rintro ⟨keys, hkeys, rfl⟩
    exact mapM_eq_ok_iff.1 hkeys
  · intro h
    exact ⟨c.keys, mapM_eq_ok_iff.2 h, rfl⟩

/-- Whatever item of a rule that compiles, the values at its path compare. -/
theorem exists_cmp?_of_compileSort (hregistry : Registry.builtinSorts = .ok r.registry)
    (hunions : r.schema.unionsProper = true) (hc : r.compileSort rule = .ok c)
    (hrecords : ∀ record ∈ records, r.schema.admits record = true) :
    ∀ i ∈ rule, ∀ a ∈ records, ∀ b ∈ records,
      ∃ o, (a.atPath i.path).cmp? (b.atPath i.path) = some o := by
  intro i hi a ha b hb
  obtain ⟨k, -, hk⟩ := exists_mem_of_forall₂ (compileSort_eq_ok_iff.1 hc).flip hi
  exact exists_cmp?_atPath hregistry hunions hk (hrecords a ha) (hrecords b hb)

/-- Records of the schema compare by a rule that compiles. -/
theorem exists_compares_of_compileSort (hregistry : Registry.builtinSorts = .ok r.registry)
    (hunions : r.schema.unionsProper = true) (hc : r.compileSort rule = .ok c)
    (hrecords : ∀ record ∈ records, r.schema.admits record = true) :
    ∀ a ∈ records, ∀ b ∈ records, ∃ o, rule.Compares a b o := by
  intro a ha b hb
  refine SortRule.exists_compares fun i hi => ?_
  obtain ⟨o, ho⟩ := exists_cmp?_of_compileSort hregistry hunions hc hrecords i hi a ha b hb
  exact ⟨o, compareValues_eq_ok_iff.2 (Value.cmp?_eq_some_iff.1 ho)⟩

/-- The keys of a rule that compiles compare as its items say. -/
theorem sorts_of_compileSort (hregistry : Registry.builtinSorts = .ok r.registry)
    (hc : r.compileSort rule = .ok c) : List.Forall₂ (fun i k => k.Sorts i) rule c.keys :=
  (compileSort_eq_ok_iff.1 hc).imp fun _ _ hk => (bindItem_eq_ok hregistry hk).1

/-- The comparator of a rule compares as the rule tells. -/
theorem compare_eq_ok_iff (hregistry : Registry.builtinSorts = .ok r.registry)
    (hunions : r.schema.unionsProper = true) (hc : r.compileSort rule = .ok c)
    (hrecords : ∀ record ∈ records, r.schema.admits record = true) :
    ∀ a ∈ records, ∀ b ∈ records, ∀ o, c.compare a b = .ok o ↔ rule.Compares a b o := by
  have hsorts := sorts_of_compileSort hregistry hc
  intro a ha b hb o
  refine ⟨fun ho => ?_, fun ho => ho.compareBy_eq_ok hsorts⟩
  -- the rule compares any two records in some way, and the comparator can only agree with that
  obtain ⟨p, hp⟩ := exists_compares_of_compileSort hregistry hunions hc hrecords a ha b hb
  rwa [Except.ok.inj (ho.symm.trans (hp.compareBy_eq_ok hsorts))]

/-- A rule that compiles compares the records of its schema lawfully. -/
theorem lawful_compare (hregistry : Registry.builtinSorts = .ok r.registry)
    (hunions : r.schema.unionsProper = true) (hc : r.compileSort rule = .ok c)
    (hrecords : ∀ record ∈ records, r.schema.admits record = true) :
    Lawful c.compare records := by
  refine Comparator.lawful_compareBy fun k hk => ?_
  obtain ⟨i, hi, hik⟩ := exists_mem_of_forall₂ (sorts_of_compileSort hregistry hc) hk
  refine hik.lawful (lawful_compareValues ?_)
  simpa using exists_cmp?_of_compileSort hregistry hunions hc hrecords i hi

/-- A rule that compiles over the ready-made comparison sorts all records of the schema, without
failure and stably, by the lexicographic order of its items: any two of them compare by the rule,
and values compare by kind with `null` first and numbers by what they are worth. -/
theorem exists_sortData_eq_ok (hregistry : Registry.builtinSorts = .ok r.registry)
    (hunions : r.schema.unionsProper = true) (hc : r.compileSort rule = .ok c)
    (hrecords : ∀ record ∈ records, r.schema.admits record = true) :
    ∃ sorted, r.sortData rule records = .ok sorted ∧
      IsStableSort (fun a b o => rule.Compares a b o) records sorted ∧
      (∀ a ∈ records, ∀ b ∈ records, ∃ o, rule.Compares a b o) ∧
      ∀ v w o, compareValues v w = .ok o ↔ v.Compares w o := by
  have hlawful := lawful_compare hregistry hunions hc hrecords
  have hcompare := compare_eq_ok_iff hregistry hunions hc hrecords
  refine ⟨_, ?_, hlawful.isStableSort_insertionSort.congr hcompare,
    exists_compares_of_compileSort hregistry hunions hc hrecords,
    fun v w o => compareValues_eq_ok_iff⟩
  rw [sortData, hc]
  exact Comparator.sort_eq_insertionSort hlawful

/-- Downwards by a number that may be missing, then by name.  The numbers of two records are equal
without being the same, and two records are without one. -/
theorem exists_sortData_eq_ok_missing : ∃ (r : Resolver) (rule : SortRule) (c : Comparator)
    (records sorted : List Value),
    r.schema = .record [("n", .optional .decimal), ("name", .text)] ∧
    rule = [⟨[.field "n"], "compare", .desc⟩, ⟨[.field "name"], "compare", .asc⟩] ∧
    records = [.recordOf [("name", .text "b")],
      .recordOf [("n", .decimal ⟨false, 20, 1, by decide, by decide⟩), ("name", .text "b")],
      .recordOf [("n", .int 2), ("name", .text "a")], .recordOf [("name", .text "a")]] ∧
    Registry.builtinSorts = .ok r.registry ∧ r.schema.unionsProper = true ∧
    r.compileSort rule = .ok c ∧ (∀ record ∈ records, r.schema.admits record = true) ∧
    r.sortData rule records = .ok sorted ∧
    IsStableSort (fun a b o => rule.Compares a b o) records sorted ∧
    sorted = [.recordOf [("n", .int 2), ("name", .text "a")],
      .recordOf [("n", .decimal ⟨false, 20, 1, by decide, by decide⟩), ("name", .text "b")],
      .recordOf [("name", .text "a")], .recordOf [("name", .text "b")]] := by
  obtain ⟨⟨role, operations, index⟩, hregistry⟩ :
      ∃ registry, Registry.builtinSorts = .ok registry := ⟨_, rfl⟩
  obtain ⟨-, rfl, -⟩ := Registry.ofList_eq_ok hregistry
  have hget : Registry.get? ⟨.sort, operations, index⟩ "compare" = some Builtins.compare :=
    Registry.get?_of_ofList hregistry (.head _)
  let r : Resolver := ⟨⟨.sort, operations, index⟩,
    .record [("n", .optional .decimal), ("name", .text)], Ty.accepts⟩
  let operation (t : Ty) : StandardOperation :=
    { name := "compare"
      signature := ⟨[t, t], .ordering⟩
      run := Builtins.compare.run
      skipValidate := false
      notes := []
      origin := some ⟨"compare", t⟩ }
  have hn : r.bindItem ⟨[.field "n"], "compare", .desc⟩ =
      .ok ⟨[.field "n"], operation (.optional .decimal), .desc⟩ := by
    have hresolve : r.resolve "compare" [.field "n"] = .ok (operation (.optional .decimal)) := by
      have haccepts := Ty.accepts_self (.optional .decimal)
      exact resolve_eq_ok_iff.2 ⟨_, .optional .decimal, hget, rfl, rfl, if_pos haccepts⟩
    rw [bindItem, hresolve]
  have hname : r.bindItem ⟨[.field "name"], "compare", .asc⟩ =
      .ok ⟨[.field "name"], operation .text, .asc⟩ := by
    have hresolve : r.resolve "compare" [.field "name"] = .ok (operation .text) := by
      have haccepts := Ty.accepts_self .text
      exact resolve_eq_ok_iff.2 ⟨_, .text, hget, rfl, rfl, if_pos haccepts⟩
    rw [bindItem, hresolve]
  let c : Comparator := ⟨[⟨[.field "n"], operation (.optional .decimal), .desc⟩,
    ⟨[.field "name"], operation .text, .asc⟩]⟩
  have hc : r.compileSort [⟨[.field "n"], "compare", .desc⟩, ⟨[.field "name"], "compare", .asc⟩] =
      .ok c := compileSort_eq_ok_iff.2 (.cons hn (.cons hname .nil))
  let records : List Value := [.recordOf [("name", .text "b")],
    .recordOf [("n", .decimal ⟨false, 20, 1, by decide, by decide⟩), ("name", .text "b")],
    .recordOf [("n", .int 2), ("name", .text "a")], .recordOf [("name", .text "a")]]
  have hrecords : ∀ record ∈ records, r.schema.admits record = true := by
    simp only [records, List.forall_mem_cons, List.not_mem_nil, false_imp_iff, implies_true]
    exact ⟨rfl, rfl, rfl, rfl, trivial⟩
  obtain ⟨sorted, hsorted, hstable, -⟩ := exists_sortData_eq_ok hregistry rfl hc hrecords
  refine ⟨r, _, c, records, sorted, rfl, rfl, rfl, hregistry, rfl, hc, hrecords, hsorted,
    hstable, ?_⟩
  have hsort : c.sort records = .ok [.recordOf [("n", .int 2), ("name", .text "a")],
      .recordOf [("n", .decimal ⟨false, 20, 1, by decide, by decide⟩), ("name", .text "b")],
      .recordOf [("name", .text "a")], .recordOf [("name", .text "b")]] := rfl
  rw [sortData, hc] at hsorted
  exact Except.ok.inj (hsorted.symm.trans hsort)

end Resolver

end RecordRules
