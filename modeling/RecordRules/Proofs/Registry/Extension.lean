import RecordRules.Proofs.Normalization.Fixpoints
import RecordRules.Proofs.Sorting

/-!
# More operations

A registry that is extended finds under each name what it found there before
(`Registry.Extends`), and registering extends it, whatever is registered and whatever is refused.
So what a resolver could do with the registry it can still do after any registrations, with the same
outcome (`Resolver.registerAll_disturbs_nothing`).

A rule of drafts is another matter, since drafts that did not become filters may do so now.  Of what
it normalizes to then, the registry as it was keeps the rule of before.
-/

namespace RecordRules

namespace Registry

variable {r r' r'' : Registry} {op : Operation}

/-- The role is the same, and so is the operation of each name that is found. -/
structure Extends (r r' : Registry) : Prop where
  role : r'.role = r.role
  get? : ∀ name op, r.get? name = some op → r'.get? name = some op

/-- A registry extends itself. -/
theorem Extends.refl (r : Registry) : r.Extends r := ⟨rfl, fun _ _ => id⟩

/-- An extension of an extension is one. -/
theorem Extends.trans (h : r.Extends r') (h' : r'.Extends r'') : r.Extends r'' :=
  ⟨h'.role.trans h.role, fun name op hop => h'.get? name op (h.get? name op hop)⟩

/-- A name that is found is no name of a new operation, and positions are not moved. -/
theorem extends_of_register (h : r.register op = .ok r') : r.Extends r' := by
  obtain ⟨hnew, -, rfl⟩ := register_eq_ok_iff.1 h
  refine ⟨rfl, fun name found hfound => ?_⟩
  rw [get?, Option.bind_eq_some_iff] at hfound ⊢
  obtain ⟨i, hindex, hi⟩ := hfound
  have hne : op.name ≠ name := by
    rintro rfl
    rw [KeyMap.contains_eq_false_iff.1 hnew] at hindex
    cases hindex
  have hlt : i < r.operations.size := (Array.getElem?_eq_some_iff.1 hi).1
  refine ⟨i, ?_, ?_⟩
  · rw [KeyMap.get?_insert, if_neg hne, hindex]
  · rw [Array.getElem?_push, if_neg hlt.ne, hi]

/-- Registrations extend a registry, whether they are refused or not. -/
theorem extends_registerAll (r : Registry) (ops : List Operation) : r.Extends (r.registerAll ops) :=
  registerAll_induction (.refl r) (fun _ _ _ h hop => h.trans (extends_of_register hop)) ops

end Registry

namespace Resolver

variable {r : Resolver} {registry : Registry}

/-! ## Operations that resolve -/

/-- Of the registry the instance of an operation needs only the role. -/
theorem instanceFor_of_role (h : registry.role = r.registry.role) (op : Operation) (t : Ty) :
    ({ r with registry } : Resolver).instanceFor op t = r.instanceFor op t := by
  cases op with
  | standard op => rfl
  | generic op => rw [instanceFor, instanceFor, h]

/-- An operation that resolves goes on resolving to the same one. -/
theorem resolve_of_extends (h : r.registry.Extends registry) {name : String} {path : Path}
    {op : StandardOperation} (hop : r.resolve name path = .ok op) :
    ({ r with registry } : Resolver).resolve name path = .ok op := by
  obtain ⟨found, t, hfound, ht, hinstance, hfirst⟩ := resolve_eq_ok_iff.1 hop
  refine resolve_eq_ok_iff.2 ⟨found, t, h.get? name found hfound, ht, ?_, hfirst⟩
  rw [instanceFor_of_role h.role, hinstance]

/-! ## Rules that compile -/

/-- A rule that compiles goes on compiling to the same predicate. -/
theorem compileFilter_of_extends (h : r.registry.Extends registry) {s : Rule Filter}
    {p : Predicate} (hp : r.compileFilter s = .ok p) :
    ({ r with registry } : Resolver).compileFilter s = .ok p := by
  obtain ⟨bound, hbound, rfl⟩ := map_eq_ok_iff.1 hp
  refine map_eq_ok_iff.2 ⟨bound, Rule.traverse_eq_ok_of_leaves (fun f _ b hb => ?_) hbound, rfl⟩
  obtain ⟨op, hop, rfl⟩ := bind_eq_ok_iff.1 hb
  exact bind_eq_ok_iff.2 ⟨op, resolve_of_extends h hop, rfl⟩

/-- A sort rule that compiles goes on compiling to the same comparator. -/
theorem compileSort_of_extends (h : r.registry.Extends registry) {rule : SortRule}
    {c : Comparator} (hc : r.compileSort rule = .ok c) :
    ({ r with registry } : Resolver).compileSort rule = .ok c := by
  refine compileSort_eq_ok_iff.2 ((compileSort_eq_ok_iff.1 hc).imp fun i k hk => ?_)
  obtain ⟨op, hop, rfl⟩ := bindItem_eq_ok_iff.1 hk
  exact bindItem_eq_ok_iff.2 ⟨op, resolve_of_extends h hop, rfl⟩

/-! ## Drafts that become filters -/

/-- A filter whose operation resolves keeps it. -/
theorem resolves_of_extends (h : r.registry.Extends registry) {f : Filter} (hf : r.Resolves f) :
    ({ r with registry } : Resolver).Resolves f := by
  obtain ⟨op, hop, harguments⟩ := hf
  exact ⟨op, resolve_of_extends h hop, harguments⟩

/-- A draft that passes its check goes on passing it, with the same filter. -/
theorem checkDraft_of_extends (h : r.registry.Extends registry) {d : Draft} {f : Filter}
    (hf : r.checkDraft d = .ok f) : ({ r with registry } : Resolver).checkDraft d = .ok f := by
  obtain ⟨hsettle, hresolves⟩ := checkDraft_eq_ok_iff.1 hf
  exact checkDraft_eq_ok_iff.2 ⟨hsettle, resolves_of_extends h hresolves⟩

/-- So no filter is lost from a rule that is pruned later. -/
theorem passes_of_extends (h : r.registry.Extends registry) (d : Draft)
    (hd : Rule.passes r.checkDraft d = true) :
    Rule.passes ({ r with registry } : Resolver).checkDraft d = true := by
  obtain ⟨f, hf⟩ := isOk_iff.1 hd
  exact isOk_iff.2 ⟨f, checkDraft_of_extends h hf⟩

/-- The filter that a draft becomes proposes the same as the draft. -/
theorem checkDraft_of_settle {d : Draft} {f : Filter} (h : d.settle = f.toDraft) :
    r.checkDraft f.toDraft = r.checkDraft d := by
  have hsettle : r.checkDraft d.settle = r.checkDraft d := by
    obtain ⟨id, path, operation, arguments, invert⟩ := d
    cases operation <;> cases path <;> rfl
  rw [← h, hsettle]

/-- Under a registry that has less, the drafts and what became of them normalize alike. -/
theorem normalize_toDraft_of_extends (h : r.registry.Extends registry) {d : Rule Draft}
    {s : Rule Filter} (hs : ({ r with registry } : Resolver).normalize d = .ok s) :
    r.normalize s.toDraft = r.normalize d := by
  refine Rule.prune_map_of_prune (passes_of_extends h) (fun f g hg => ?_) hs
  exact checkDraft_of_settle (checkDraft_eq_ok_iff.1 hg).1

/-- Normalizing a rule of filters takes filters away and changes none. -/
theorem leaves_sublist_of_normalize_toDraft {s s' : Rule Filter}
    (h : r.normalize s'.toDraft = .ok s) : s.leaves.Sublist s'.leaves := by
  -- the draft of a filter has its flag settled, so it can be told from what became of it
  have hsettle : Draft.settle ∘ Filter.toDraft = Filter.toDraft := rfl
  have hleaves := leaves_of_normalize h
  rw [Rule.toDraft, Rule.leaves_map, List.filter_map, List.map_map, hsettle] at hleaves
  rw [List.map_injective_iff.2 Filter.toDraft_injective hleaves]
  exact List.filter_sublist

/-- Whatever is registered besides, and whatever is refused: what resolves does so with the same
operation, what compiles becomes the same predicate or comparator, and a draft that becomes a filter
becomes the same one.  The filters of a normalized rule are still among those that its drafts
normalize to, in the groups and the order they had. -/
theorem registerAll_disturbs_nothing (r : Resolver) (ops : List Operation) :
    let q : Resolver := { r with registry := r.registry.registerAll ops }
    (∀ name path op, r.resolve name path = .ok op → q.resolve name path = .ok op) ∧
    (∀ s p, r.compileFilter s = .ok p → q.compileFilter s = .ok p) ∧
    (∀ rule c, r.compileSort rule = .ok c → q.compileSort rule = .ok c) ∧
    (∀ f g, r.normalize (.leaf f) = .ok g → q.normalize (.leaf f) = .ok g) ∧
    ∀ d s, r.normalize d = .ok s → ∃ s', q.normalize d = .ok s' ∧
      s.leaves.Sublist s'.leaves ∧ r.normalize s'.toDraft = .ok s := by
  intro q
  have h : r.registry.Extends (r.registry.registerAll ops) :=
    Registry.extends_registerAll r.registry ops
  refine ⟨fun name path op => resolve_of_extends h, fun s p => compileFilter_of_extends h,
    fun rule c => compileSort_of_extends h, fun f g hg => ?_, fun d s hs => ?_⟩
  · obtain ⟨f', hf', rfl⟩ := map_eq_ok_iff.1 hg
    exact map_eq_ok_iff.2 ⟨f', checkDraft_of_extends h hf', rfl⟩
  · obtain ⟨s', hs'⟩ := Rule.exists_prune_eq_ok (passes_of_extends h) hs
    have hback : r.normalize s'.toDraft = .ok s := (normalize_toDraft_of_extends h hs').trans hs
    exact ⟨s', hs', leaves_sublist_of_normalize_toDraft hback, hback⟩

/-- Two operations are refused, one for its name and one for its signature, and four are added, with
which another draft becomes a filter. -/
theorem registerAll_disturbs_nothing_refused : ∃ (misfit : Operation) (r q r' q' : Resolver)
    (a : Filter) (d : Rule Draft) (s s' : Rule Filter) (op : StandardOperation) (p : Predicate)
    (c : Comparator),
    misfit = .standard ⟨"count", ⟨[], .int⟩, fun _ => .ok (.int 0), false, [], none⟩ ∧
    r = ⟨(Registry.empty .filter).registerAll [Builtins.greaterThan],
      .record [("n", .int), ("t", .text)], Ty.accepts⟩ ∧
    q = { r with registry := r.registry.registerAll (misfit :: Builtins.filters) } ∧
    q.registry.size = 5 ∧
    a = ⟨"a", [.field "n"], "greater than", [.int 5], true⟩ ∧
    r.resolve a.operation a.path = .ok op ∧ q.resolve a.operation a.path = .ok op ∧
    s = .group "g" .or true [.leaf a] ∧ r.compileFilter s = .ok p ∧ q.compileFilter s = .ok p ∧
    r.normalize (.leaf a.toDraft) = .ok (.leaf a) ∧ q.normalize (.leaf a.toDraft) = .ok (.leaf a) ∧
    d = .group "g" .or true [.group "h" .and false
      [.leaf ⟨"b", some [.field "t"], some "contains", [.text "x"], none⟩], .leaf a.toDraft] ∧
    r.normalize d = .ok s ∧ q.normalize d = .ok s' ∧ s.leaves.Sublist s'.leaves ∧
    r.normalize s'.toDraft = .ok s ∧
    r' = { r with registry := (Registry.empty .sort).registerAll Builtins.sorts } ∧
    q' = { r' with registry := r'.registry.registerAll (misfit :: Builtins.filters) } ∧
    r'.compileSort [⟨[.field "n"], "compare", .desc⟩] = .ok c ∧
    q'.compileSort [⟨[.field "n"], "compare", .desc⟩] = .ok c := by
  let misfit : Operation :=
    .standard ⟨"count", ⟨[], .int⟩, fun _ => .ok (.int 0), false, [], none⟩
  let r : Resolver := ⟨(Registry.empty .filter).registerAll [Builtins.greaterThan],
    .record [("n", .int), ("t", .text)], Ty.accepts⟩
  let q : Resolver := { r with registry := r.registry.registerAll (misfit :: Builtins.filters) }
  let r' : Resolver := { r with registry := (Registry.empty .sort).registerAll Builtins.sorts }
  let a : Filter := ⟨"a", [.field "n"], "greater than", [.int 5], true⟩
  have hsize : q.registry.size = 5 := by decide +kernel
  have haccepts := Ty.accepts_self .int
  have hresolves : r.Resolves a := ⟨_, resolve_eq_ok_iff.2
    ⟨Builtins.greaterThan, .int, rfl, rfl, rfl, if_pos haccepts⟩, rfl⟩
  have ⟨op, hop, _⟩ := hresolves
  have ha : r.checkDraft a.toDraft = .ok a := checkDraft_toDraft hresolves
  have hb : r.checkDraft ⟨"b", some [.field "t"], some "contains", [.text "x"], none⟩ =
      .error (.operationNotFound "contains") := rfl
  have hd : r.normalize (.group "g" .or true [.group "h" .and false
      [.leaf ⟨"b", some [.field "t"], some "contains", [.text "x"], none⟩], .leaf a.toDraft]) =
      .ok (.group "g" .or true [.leaf a]) := by
    simp only [normalize, Rule.prune, Rule.pruneList, ha, hb]
    rfl
  have hleaf : r.normalize (.leaf a.toDraft) = .ok (.leaf a) := by
    rw [normalize_leaf, ha, Except.map]
  obtain ⟨bound, hbound, -⟩ := exists_compileFilter_eq_ok (r := r) (s := .group "g" .or true
    [.leaf a]) (List.forall_mem_singleton.2 hresolves)
  have hcompare : ∃ op, r'.resolve "compare" [.field "n"] = .ok op :=
    ⟨_, resolve_eq_ok_iff.2 ⟨Builtins.compare, .int, rfl, rfl, rfl, if_pos haccepts⟩⟩
  obtain ⟨c, hc⟩ : ∃ c, r'.compileSort [⟨[.field "n"], "compare", .desc⟩] = .ok c := by
    obtain ⟨op, hop⟩ := hcompare
    exact ⟨⟨[_]⟩, compileSort_eq_ok_iff.2 (.cons (bindItem_eq_ok_iff.2 ⟨op, hop, rfl⟩) .nil)⟩
  obtain ⟨hresolve, hfilter, -, hdraft, hrule⟩ :=
    registerAll_disturbs_nothing r (misfit :: Builtins.filters)
  have hsort := (registerAll_disturbs_nothing r' (misfit :: Builtins.filters)).2.2.1 _ c hc
  obtain ⟨s', hs', hsublist, hback⟩ := hrule _ _ hd
  exact ⟨misfit, r, q, r', _, a, _, _, s', op, _, c, rfl, rfl, rfl, hsize, rfl, hop,
    hresolve _ _ op hop, rfl, hbound, hfilter _ _ hbound, hleaf, hdraft _ _ hleaf, rfl, hd, hs',
    hsublist, hback, rfl, rfl, hc, hsort⟩

end Resolver

end RecordRules
