import RecordRules.Builtins
import RecordRules.Proofs.Registry
import RecordRules.Proofs.Resolver
import RecordRules.Proofs.Ty.Levels

/-!
# Discovery against resolution

An operation is discovered on a field exactly if its name resolves there
(`forField?_eq_resolve`).  So discovery lists the fields on which some name resolves, each once and
with all operations that do (`discover_agrees`).
-/

namespace RecordRules

variable {op : Operation} {found : StandardOperation} {t : Ty}

/-- A field is discovered with all operations that apply to it, and only if there are any. -/
theorem DiscoveredField.of?_eq_some_iff {ops : List Operation} {role : Role}
    {oracle : Ty → Ty → Bool} {field : Path × Ty} {d : DiscoveredField} :
    of? ops role oracle field = some d ↔
      field = (d.path, d.fieldType) ∧
        d.operations = ops.filterMap (·.forField? role oracle d.fieldType) ∧
        d.operations ≠ [] := by
  obtain ⟨path, t⟩ := field
  obtain ⟨path', t', ops'⟩ := d
  unfold of?
  split
  · next hnil =>
    simp only [reduceCtorEq, Prod.mk.injEq, false_iff]
    rintro ⟨⟨rfl, rfl⟩, rfl, hne⟩
    exact hne hnil
  · next hne =>
    simp only [Option.some.injEq, DiscoveredField.mk.injEq, Prod.mk.injEq]
    constructor
    · rintro ⟨rfl, rfl, rfl⟩
      exact ⟨⟨rfl, rfl⟩, rfl, hne⟩
    · rintro ⟨⟨rfl, rfl⟩, rfl, -⟩
      exact ⟨rfl, rfl, rfl⟩

namespace Resolver

variable {r : Resolver}

/-- The field has to pass for the first parameter, as the oracle says. -/
theorem checkFirstParam_eq_ok_iff :
    r.checkFirstParam found t = .ok () ↔
      ∃ first, found.signature.firstParam? = some first ∧ r.oracle first t = true := by
  refine ⟨checkFirstParam_eq_ok, ?_⟩
  rintro ⟨first, hfirst, horacle⟩
  simp [checkFirstParam, hfirst, horacle]

/-- Of registered operations, those apply to a field that resolution finds for its type. -/
theorem forField?_eq_some_iff (hr : r.registry.Sound) (hop : op ∈ r.registry.operations.toList) :
    op.forField? r.registry.role r.oracle t = some found ↔
      r.instanceFor op t = .ok found ∧ r.checkFirstParam found t = .ok () := by
  rw [checkFirstParam_eq_ok_iff]
  unfold Operation.forField? instanceFor
  cases op with
  | standard op =>
    simp only [hr.accepts hop, if_true, Option.bind_eq_bind, Option.bind_some,
      Option.bind_eq_some_iff, Option.ite_none_right_eq_some, Option.some.injEq, Except.ok.injEq]
    constructor
    · rintro ⟨first, hfirst, horacle, rfl⟩
      exact ⟨rfl, first, hfirst, horacle⟩
    · rintro ⟨rfl, first, hfirst, horacle⟩
      exact ⟨first, hfirst, horacle, rfl⟩
  | generic op =>
    simp only [Option.bind_eq_bind, Option.bind_eq_some_iff, Option.ite_none_right_eq_some,
      Option.some.injEq]
    cases op.instantiate? r.registry.role t with
    | none => simp
    | some found' =>
      simp only [Option.some.injEq, Except.ok.injEq]
      constructor
      · rintro ⟨_, rfl, first, hfirst, horacle, rfl⟩
        exact ⟨rfl, first, hfirst, horacle⟩
      · rintro ⟨rfl, first, hfirst, horacle⟩
        exact ⟨_, rfl, first, hfirst, horacle, rfl⟩

/-- A registered operation applies to a field exactly if its name resolves there. -/
theorem forField?_eq_resolve (hr : r.registry.Sound) (hop : op ∈ r.registry.operations.toList)
    {path : Path} (ht : r.schema.atPath? path = some t) :
    op.forField? r.registry.role r.oracle t = (r.resolve op.name path).toOption := by
  -- the name of a registered operation leads to this operation, so nothing else is looked up
  have hresolve : ∀ found, r.resolve op.name path = .ok found ↔
      r.instanceFor op t = .ok found ∧ r.checkFirstParam found t = .ok () := by
    intro found
    simp [resolve_eq_ok_iff, hr.get?_of_mem hop, ht]
  apply Option.ext
  intro found
  rw [forField?_eq_some_iff hr hop, ← hresolve]
  cases r.resolve op.name path <;> simp [Except.toOption]

/-- The operations whose names resolve on a field, in the order of their registration. -/
def resolvable (r : Resolver) (path : Path) : List StandardOperation :=
  r.registry.operations.toList.filterMap fun op => (r.resolve op.name path).toOption

/-- Some operation of a registry that is sound resolves on a field exactly if some name does. -/
theorem resolvable_ne_nil_iff (hr : r.registry.Sound) {path : Path} :
    r.resolvable path ≠ [] ↔ ∃ name found, r.resolve name path = .ok found := by
  simp only [resolvable, ne_eq, List.eq_nil_iff_forall_not_mem, not_forall, not_not,
    List.mem_filterMap]
  constructor
  · rintro ⟨found, op, -, hfound⟩
    refine ⟨op.name, found, ?_⟩
    cases h : r.resolve op.name path with
    | error issue => simp [h, Except.toOption] at hfound
    | ok found' => simpa [h, Except.toOption] using hfound
  · rintro ⟨name, found, hfound⟩
    obtain ⟨op, t, hget, -⟩ := resolve_eq_ok_iff.1 hfound
    obtain ⟨hop, rfl⟩ := hr.indexed.get?_eq_some hget
    exact ⟨found, op, hop, by rw [hfound]; rfl⟩

/-- What is discovered, field by field. -/
theorem mem_discover_iff (hr : r.registry.Sound) (hschema : r.schema.namesDistinct = true)
    {maxDepth : Nat} {d : DiscoveredField} :
    d ∈ r.discover maxDepth ↔
      (∃ names, names.length ≤ maxDepth ∧ d.path = Path.fields names ∧
        r.schema.LeadsTo names d.fieldType) ∧
      d.operations = r.resolvable d.path ∧ d.operations ≠ [] := by
  simp only [discover, discoverFields, List.mem_filterMap, DiscoveredField.of?_eq_some_iff,
    Prod.exists, Prod.mk.injEq]
  have hops : (∃ names, names.length ≤ maxDepth ∧ d.path = Path.fields names ∧
        r.schema.LeadsTo names d.fieldType) →
      r.registry.operations.toList.filterMap
        (·.forField? r.registry.role r.oracle d.fieldType) = r.resolvable d.path := by
    rintro ⟨names, -, hpath, htype⟩
    have ht : r.schema.atPath? d.path = some d.fieldType :=
      hpath ▸ Ty.atPath?_of_leadsTo hschema htype
    exact List.filterMap_congr fun op hop => forField?_eq_resolve hr hop ht
  constructor
  · rintro ⟨_, _, hmem, ⟨rfl, rfl⟩, hoperations, hne⟩
    have hfield := Ty.mem_fieldsUpTo.1 hmem
    exact ⟨hfield, hoperations.trans (hops hfield), hne⟩
  · rintro ⟨hfield, hoperations, hne⟩
    exact ⟨_, _, Ty.mem_fieldsUpTo.2 hfield, ⟨rfl, rfl⟩, hoperations.trans (hops hfield).symm, hne⟩

/-- With distinct names in the schema no path is discovered twice. -/
theorem nodup_path_discover (hschema : r.schema.namesDistinct = true) (maxDepth : Nat) :
    ((r.discover maxDepth).map DiscoveredField.path).Nodup := by
  rw [discover, discoverFields, List.Nodup, List.pairwise_map, List.pairwise_filterMap]
  refine (List.pairwise_map.1 (Ty.nodup_fieldsUpTo hschema maxDepth)).imp ?_
  intro x y hne d hd e he hpath
  apply hne
  rw [(DiscoveredField.of?_eq_some_iff.1 hd).1, (DiscoveredField.of?_eq_some_iff.1 he).1]
  exact hpath

/-- Where no record type declares a name twice, a path of at most `maxDepth` names through record
types is listed once if a registered name resolves there, and no other path is.  The entry has
the type at the path and the results of all names that resolve, in the order of registration. -/
theorem discover_agrees (role : Role) (calls : List Operation) (schema : Ty)
    (hschema : schema.namesDistinct = true) (oracle : Ty → Ty → Bool) (maxDepth : Nat) :
    let r : Resolver := ⟨(Registry.empty role).registerAll calls, schema, oracle⟩
    (∀ path, (∃ d ∈ r.discover maxDepth, d.path = path) ↔
      (∃ names t, names.length ≤ maxDepth ∧ path = Path.fields names ∧ schema.LeadsTo names t) ∧
        ∃ name found, r.resolve name path = .ok found) ∧
    ((r.discover maxDepth).map DiscoveredField.path).Nodup ∧
    ∀ d ∈ r.discover maxDepth, schema.atPath? d.path = some d.fieldType ∧
      d.operations =
        r.registry.operations.toList.filterMap fun op => (r.resolve op.name d.path).toOption := by
  intro r
  have hr : r.registry.Sound := Registry.sound_registerAll role calls
  refine ⟨fun path => ?_, nodup_path_discover hschema maxDepth, fun d hd => ?_⟩
  · constructor
    · rintro ⟨d, hd, rfl⟩
      obtain ⟨⟨names, hlength, hpath, htype⟩, hops, hne⟩ := (mem_discover_iff hr hschema).1 hd
      exact ⟨⟨names, _, hlength, hpath, htype⟩, (resolvable_ne_nil_iff hr).1 (hops ▸ hne)⟩
    · rintro ⟨⟨names, t, hlength, hpath, htype⟩, hresolves⟩
      refine ⟨⟨path, t, r.resolvable path⟩, (mem_discover_iff hr hschema).2 ?_, rfl⟩
      exact ⟨⟨names, hlength, hpath, htype⟩, rfl, (resolvable_ne_nil_iff hr).2 hresolves⟩
  · obtain ⟨⟨names, -, hpath, htype⟩, hops, -⟩ := (mem_discover_iff hr hschema).1 hd
    exact ⟨hpath ▸ Ty.atPath?_of_leadsTo hschema htype, hops⟩

/-- A field of a record inside the record, where one of the registrations was refused. -/
theorem discover_agrees_nested :
    let schema := Ty.record [("at", .record [("city", .text), ("zip", .int)]), ("n", .decimal)]
    let r : Resolver := ⟨(Registry.empty .filter).registerAll
      [Builtins.contains, Builtins.contains, Builtins.lessThan], schema, Ty.accepts⟩
    schema.namesDistinct = true ∧ r.registry.size = 2 ∧
      ∃ d ∈ r.discover 2, d.path = [.field "at", .field "city"] ∧
        some Ty.text = some d.fieldType := by
  have hschema : Ty.namesDistinct
      (.record [("at", .record [("city", .text), ("zip", .int)]), ("n", .decimal)]) = true := by
    decide +kernel
  obtain ⟨hlisted, -, hentry⟩ := discover_agrees .filter
    [Builtins.contains, Builtins.contains, Builtins.lessThan] _ hschema Ty.accepts 2
  have hcity : Ty.LeadsTo
      (.record [("at", .record [("city", .text), ("zip", .int)]), ("n", .decimal)])
      ["at", "city"] .text := .field (.head _) (.field (.head _) (.root _))
  obtain ⟨d, hd, hpath⟩ := (hlisted [.field "at", .field "city"]).2
    ⟨⟨["at", "city"], _, by decide, rfl, hcity⟩, "contains", _, by cbv⟩
  refine ⟨hschema, by decide +kernel, d, hd, hpath, ?_⟩
  rw [← (hentry d hd).1, hpath]
  rfl

end Resolver

end RecordRules
