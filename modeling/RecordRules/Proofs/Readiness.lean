import RecordRules.Proofs.Normalization

/-!
# Readiness

The registry alone tells whether a draft has a path and an operation, and whether it has too few
arguments for a standard operation.  Normalization looks at the field as well, and wants as many
arguments as the operation takes there.

What is missing by the registry is missing whatever the schema and the oracle, so a draft that
normalizes is ready (`Resolver.readiness_agrees`).  The other way round, what normalization finds
missing is on the list that readiness gives, the arguments of a generic operation apart.  A draft
that is ready may still fail for other reasons: nobody registered its operation, its field is not
there or of another type, or it has too many arguments.
-/

namespace RecordRules

/-! ## What is missing by the registry -/

/-- The arguments are checked, there are fewer of them than parameters for them, and `m` tells how
many. -/
def StandardOperation.Lacks (op : StandardOperation) (arguments : List Value) (m : Missing) :
    Prop :=
  op.skipValidate = false ∧ arguments.length < op.signature.restParams.length ∧
    m = .arguments op.signature.restParams.length arguments.length

namespace Readiness

/-- A draft is incomplete when something is missing, and then with all that is. -/
theorem ofMissing_eq_incomplete_iff {l missing : List Missing} :
    ofMissing l = incomplete missing ↔ l = missing ∧ missing ≠ [] := by
  cases l with
  | nil =>
    simp only [ofMissing, reduceCtorEq, false_iff, not_and, not_not]
    exact Eq.symm
  | cons m l =>
    simp only [ofMissing, incomplete.injEq, iff_self_and]
    rintro rfl
    exact List.cons_ne_nil m l

/-- Only `ready` counts as being ready. -/
theorem isReady_iff {s : Readiness} : s.isReady = true ↔ s = ready := by
  cases s <;> simp [isReady]

end Readiness

namespace Draft

variable {f : Draft} {r : Registry} {m : Missing} {missing : List Missing}

/-- What a draft lacks by a registry: a part that it does not name, or arguments for a standard
operation. -/
inductive Lacks (f : Draft) (r : Registry) : Missing → Prop
  | path (h : f.path = none) : Lacks f r .path
  | operation (h : f.operation = none) : Lacks f r .operation
  | arguments {op : StandardOperation} {m : Missing}
      (hop : f.operation.bind r.get? = some (.standard op)) (h : op.Lacks f.arguments m) :
      Lacks f r m

/-- Arguments are missing only to a standard operation that the registry knows. -/
theorem mem_missingArguments_iff : m ∈ f.missingArguments r ↔
    ∃ op, f.operation.bind r.get? = some (.standard op) ∧ op.Lacks f.arguments m := by
  unfold missingArguments
  cases f.operation.bind r.get? with
  | none => simp
  | some found =>
    cases found with
    | generic g => simp
    | standard op =>
      simp only [Option.some.injEq, Operation.standard.injEq, exists_eq_left',
        StandardOperation.Lacks]
      cases op.skipValidate <;> simp

/-- The list has what a draft lacks by the registry. -/
theorem mem_missing_iff : m ∈ f.missing r ↔ f.Lacks r m := by
  rw [Draft.missing, missingParts, List.mem_append, List.mem_append, mem_missingArguments_iff]
  constructor
  · rintro ((h | h) | ⟨op, hop, h⟩)
    · obtain ⟨hpath, rfl⟩ : f.path = none ∧ m = .path := by simpa using h
      exact .path hpath
    · obtain ⟨hname, rfl⟩ : f.operation = none ∧ m = .operation := by simpa using h
      exact .operation hname
    · exact .arguments hop h
  · intro h
    cases h with
    | path h => simp [h]
    | operation h => simp [h]
    | arguments hop h => exact .inr ⟨_, hop, h⟩

/-- A draft is incomplete with the list of what is missing, if that is not empty. -/
theorem readiness_eq_incomplete_iff :
    f.readiness r = .incomplete missing ↔ f.missing r = missing ∧ missing ≠ [] :=
  Readiness.ofMissing_eq_incomplete_iff

end Draft

/-! ## What is missing by the resolver -/

/-- What is missing according to an issue.  Arguments that an operation does not take are not
missing. -/
def Issue.lack? : Issue → Option Missing
  | missingPath _ => some .path
  | missingOperation _ => some .operation
  | arityMismatch _ expected got =>
    if got < expected then some (.arguments expected got) else none
  | _ => none

namespace Resolver

variable {r : Resolver} {f : Draft} {op : StandardOperation} {name : String} {path : Path}
  {arguments : List Value} {issue : Issue} {m : Missing}

/-- A field that is not there is nothing that a draft lacks. -/
theorem lack?_of_fieldType (h : r.fieldType path = .error issue) : issue.lack? = none := by
  unfold fieldType at h
  split at h
  · cases h
  · cases h
    rfl

/-- An operation that does not apply is nothing that a draft lacks. -/
theorem lack?_of_instanceFor {found : Operation} {t : Ty}
    (h : r.instanceFor found t = .error issue) : issue.lack? = none := by
  unfold instanceFor at h
  split at h
  · cases h
  · split at h
    · cases h
    · cases h
      rfl

/-- A field of the wrong type is nothing that a draft lacks. -/
theorem lack?_of_checkFirstParam {t : Ty} (h : r.checkFirstParam op t = .error issue) :
    issue.lack? = none := by
  unfold checkFirstParam at h
  split at h
  · split at h
    · cases h
    · cases h
      rfl
  · cases h
    rfl

/-- Where an operation does not resolve on a field, nothing is missing that a draft could add. -/
theorem lack?_of_resolve (h : r.resolve name path = .error issue) : issue.lack? = none := by
  unfold resolve at h
  split at h
  · cases h
    rfl
  · simp only [RecordRules.bind_eq_error_iff] at h
    obtain hfield | ⟨t, -, hinstance | ⟨op, -, hfirst | ⟨_, -, hpure⟩⟩⟩ := h
    · exact lack?_of_fieldType hfield
    · exact lack?_of_instanceFor hinstance
    · exact lack?_of_checkFirstParam hfirst
    · cases hpure

/-- Checking the arguments finds the same missing as counting them. -/
theorem exists_lack_checkArguments_iff :
    (∃ issue, checkArguments op arguments = .error issue ∧ issue.lack? = some m) ↔
      op.Lacks arguments m := by
  unfold checkArguments StandardOperation.Lacks
  dsimp only
  split
  · next hskip => simp [hskip]
  · next hskip =>
    split
    · next hlength => simp [hskip, Issue.lack?, eq_comm]
    · next hlength =>
      have hnot : ¬ arguments.length < op.signature.restParams.length := by omega
      cases badArgument? 0 op.signature.restParams arguments <;> simp [hnot, Issue.lack?]

/-- A standard operation resolves to itself. -/
theorem eq_of_resolve_standard {op' : StandardOperation}
    (hop : r.registry.get? name = some (.standard op)) (h : r.resolve name path = .ok op') :
    op' = op := by
  obtain ⟨found, t, hfound, -, hinstance, -⟩ := resolve_eq_ok_iff.1 h
  obtain rfl : found = .standard op := Option.some.inj (hfound.symm.trans hop)
  exact (Except.ok.inj hinstance).symm

/-- The draft names its parts, but they do not go together. -/
def Unresolved (r : Resolver) (f : Draft) (issue : Issue) : Prop :=
  ∃ name path, f.operation = some name ∧ f.path = some path ∧ r.resolve name path = .error issue

/-- How a draft fails to become a filter. -/
inductive Fails (r : Resolver) (f : Draft) : Issue → Prop
  | operation (h : f.operation = none) : Fails r f (.missingOperation f.id)
  | path (hname : f.operation ≠ none) (h : f.path = none) : Fails r f (.missingPath f.id)
  | unresolved {issue : Issue} (h : r.Unresolved f issue) : Fails r f issue
  | arguments {name : String} {path : Path} {op : StandardOperation} {issue : Issue}
      (hname : f.operation = some name) (hpath : f.path = some path)
      (hop : r.resolve name path = .ok op) (h : checkArguments op f.arguments = .error issue) :
      Fails r f issue

/-- A draft that names its parts fails when they do not go together or when its arguments do not
fit. -/
theorem checkDraft_of_parts (hname : f.operation = some name) (hpath : f.path = some path) :
    r.checkDraft f = .error issue ↔ r.resolve name path = .error issue ∨
      ∃ op, r.resolve name path = .ok op ∧ checkArguments op f.arguments = .error issue := by
  unfold checkDraft
  simp [hname, hpath, RecordRules.bind_eq_error_iff, pure, Except.pure]

/-- The check of a draft fails in the ways that `Fails` lists, and with the same issue. -/
theorem checkDraft_eq_error_iff : r.checkDraft f = .error issue ↔ r.Fails f issue := by
  constructor
  · intro h
    cases hname : f.operation with
    | none =>
      simp only [checkDraft, hname, Except.error.injEq] at h
      exact h ▸ .operation hname
    | some name =>
      cases hpath : f.path with
      | none =>
        simp only [checkDraft, hname, hpath, Except.error.injEq] at h
        exact h ▸ .path (by simp [hname]) hpath
      | some path =>
        obtain hresolve | ⟨op, hop, harguments⟩ := (checkDraft_of_parts hname hpath).1 h
        · exact .unresolved ⟨name, path, hname, hpath, hresolve⟩
        · exact .arguments hname hpath hop harguments
  · intro h
    cases h with
    | operation h => simp only [checkDraft, h]
    | path hname h =>
      obtain ⟨name, hname⟩ := Option.ne_none_iff_exists'.1 hname
      simp only [checkDraft, hname, h]
    | unresolved h =>
      obtain ⟨name, path, hname, hpath, hresolve⟩ := h
      exact (checkDraft_of_parts hname hpath).2 (.inl hresolve)
    | arguments hname hpath hop h => exact (checkDraft_of_parts hname hpath).2 (.inr ⟨_, hop, h⟩)

/-! ## Both together -/

/-- A draft that lacks something by the registry fails.  It fails for that, unless it names its
parts and these do not resolve. -/
theorem exists_fails_of_lacks (h : f.Lacks r.registry m) : ∃ issue, r.Fails f issue ∧
    (r.Unresolved f issue ∨ ∃ m, f.Lacks r.registry m ∧ issue.lack? = some m) := by
  cases hname : f.operation with
  | none => exact ⟨_, .operation hname, .inr ⟨_, .operation hname, rfl⟩⟩
  | some name =>
    cases hpath : f.path with
    | none => exact ⟨_, .path (by simp [hname]) hpath, .inr ⟨_, .path hpath, rfl⟩⟩
    | some path =>
      cases h with
      | path h => simp [hpath] at h
      | operation h => simp [hname] at h
      | @arguments op _ hop hlacks =>
        have hget : r.registry.get? name = some (.standard op) := by simpa [hname] using hop
        -- only if the operation resolves does normalization come to count the arguments
        cases hresolve : r.resolve name path with
        | error issue =>
          have hunresolved : r.Unresolved f issue := ⟨name, path, hname, hpath, hresolve⟩
          exact ⟨issue, .unresolved hunresolved, .inl hunresolved⟩
        | ok op' =>
          obtain rfl : op' = op := eq_of_resolve_standard hget hresolve
          obtain ⟨issue, hissue, hlack⟩ := exists_lack_checkArguments_iff.2 hlacks
          exact ⟨issue, .arguments hname hpath hresolve hissue,
            .inr ⟨m, .arguments hop hlacks, hlack⟩⟩

/-- What a draft lacks by its issue it lacks by the registry, except for arguments that nobody can
count without the field. -/
theorem Fails.lacks_or_generic (h : r.Fails f issue) (hm : issue.lack? = some m) :
    f.Lacks r.registry m ∨ ∃ g, f.operation.bind r.registry.get? = some (.generic g) := by
  cases h with
  | operation h =>
    obtain rfl := Option.some.inj hm
    exact .inl (.operation h)
  | path _ h =>
    obtain rfl := Option.some.inj hm
    exact .inl (.path h)
  | unresolved h =>
    obtain ⟨name, path, -, -, hresolve⟩ := h
    rw [lack?_of_resolve hresolve] at hm
    cases hm
  | @arguments name path op _ hname hpath hop h =>
    obtain ⟨found, -, hget, -⟩ := resolve_eq_ok_iff.1 hop
    have hfound : f.operation.bind r.registry.get? = some found := by
      rw [hname]
      exact hget
    cases found with
    | generic g => exact .inr ⟨g, hfound⟩
    | standard op' =>
      obtain rfl : op = op' := eq_of_resolve_standard hget hop
      exact .inl (.arguments hfound (exists_lack_checkArguments_iff.1 ⟨issue, h, hm⟩))

/-- A draft that becomes a filter lacks nothing by the registry. -/
theorem ready_of_normalizes (h : r.normalizes f = true) : f.readiness r.registry = .ready := by
  cases hready : f.readiness r.registry with
  | ready => rfl
  | incomplete missing =>
    obtain ⟨rfl, hne⟩ := Draft.readiness_eq_incomplete_iff.1 hready
    obtain ⟨m, hm⟩ := List.exists_mem_of_ne_nil _ hne
    obtain ⟨issue, hissue, -⟩ := exists_fails_of_lacks (Draft.mem_missing_iff.1 hm)
    rw [← passes_checkDraft, Rule.passes, checkDraft_eq_error_iff.2 hissue] at h
    cases h

/-- A draft that normalizes for some schema and some oracle is ready.  One that is not ready
normalizes for none of them: if its operation resolves on its field at all, it fails for something
that is missing by the registry.  Whatever normalization finds missing, other than arguments of a
generic operation, is on the list.  So the filters of a normalized rule are among its ready drafts,
in their order. -/
theorem readiness_agrees (registry : Registry) :
    (∀ f schema oracle s, normalize ⟨registry, schema, oracle⟩ (.leaf f) = .ok s →
      f.readiness registry = .ready) ∧
    (∀ f missing, f.readiness registry = .incomplete missing → ∀ schema oracle, ∃ issue,
      normalize ⟨registry, schema, oracle⟩ (.leaf f) = .error issue ∧
        (Unresolved ⟨registry, schema, oracle⟩ f issue ∨
          ∃ m ∈ missing, issue.lack? = some m)) ∧
    (∀ f schema oracle issue m,
      normalize ⟨registry, schema, oracle⟩ (.leaf f) = .error issue → issue.lack? = some m →
        (∃ missing, f.readiness registry = .incomplete missing ∧ m ∈ missing) ∨
          ∃ g, f.operation.bind registry.get? = some (.generic g)) ∧
    ∀ d schema oracle s, normalize ⟨registry, schema, oracle⟩ d = .ok s →
      (s.leaves.map Filter.toDraft).Sublist
        ((d.leaves.filter fun f => (f.readiness registry).isReady).map Draft.settle) := by
  refine ⟨fun f schema oracle s hs => ?_, fun f missing hmissing schema oracle => ?_,
    fun f schema oracle issue m hissue hm => ?_, fun d schema oracle s hs => ?_⟩
  · exact ready_of_normalizes (r := ⟨registry, schema, oracle⟩) (isOk_iff.2 ⟨s, hs⟩)
  · obtain ⟨rfl, hne⟩ := Draft.readiness_eq_incomplete_iff.1 hmissing
    -- any one of the missing things is enough for normalization to fail
    obtain ⟨m, hm⟩ := List.exists_mem_of_ne_nil _ hne
    obtain ⟨issue, hissue, htold⟩ :=
      exists_fails_of_lacks (r := ⟨registry, schema, oracle⟩) (Draft.mem_missing_iff.1 hm)
    refine ⟨issue, ?_, htold.imp_right ?_⟩
    · rw [normalize_leaf, map_eq_error_iff]
      exact checkDraft_eq_error_iff.2 hissue
    · rintro ⟨m, hm, hlack⟩
      exact ⟨m, Draft.mem_missing_iff.2 hm, hlack⟩
  · rw [normalize_leaf, map_eq_error_iff, checkDraft_eq_error_iff] at hissue
    refine (hissue.lacks_or_generic hm).imp_left fun hlacks => ?_
    have hmem := Draft.mem_missing_iff.2 hlacks
    exact ⟨_, Draft.readiness_eq_incomplete_iff.2 ⟨rfl, List.ne_nil_of_mem hmem⟩, hmem⟩
  · rw [leaves_of_normalize hs]
    refine (List.monotone_filter_right _ fun f hf => ?_).map Draft.settle
    exact Readiness.isReady_iff.2 (ready_of_normalizes hf)

/-- A search for a text, and one for nothing, which is dropped. -/
theorem readiness_agrees_contains :
    let r : Resolver := ⟨(Registry.empty .filter).registerAll Builtins.filters,
      .record [("t", .text)], Ty.accepts⟩
    let a : Filter := ⟨"a", [.field "t"], "contains", [.text "x"], true⟩
    let b : Draft := ⟨"b", some [.field "t"], some "contains", [], none⟩
    let d : Rule Draft := .group "g" .and false [.leaf b, .leaf a.toDraft]
    (r.normalize (.leaf a.toDraft) = .ok (.leaf a) ∧ a.toDraft.readiness r.registry = .ready) ∧
    (b.readiness r.registry = .incomplete [.arguments 1 0] ∧ ∀ schema oracle, ∃ issue,
      normalize ⟨r.registry, schema, oracle⟩ (.leaf b) = .error issue ∧
        (Unresolved ⟨r.registry, schema, oracle⟩ b issue ∨
          ∃ m ∈ [Missing.arguments 1 0], issue.lack? = some m)) ∧
    (r.normalize (.leaf b) = .error (.arityMismatch "contains" 1 0) ∧
      ((∃ missing, b.readiness r.registry = .incomplete missing ∧ .arguments 1 0 ∈ missing) ∨
        ∃ g, b.operation.bind r.registry.get? = some (.generic g))) ∧
    r.normalize d = .ok (.group "g" .and false [.leaf a]) ∧
      [a.toDraft].Sublist
        ((d.leaves.filter fun f => (f.readiness r.registry).isReady).map Draft.settle) := by
  intro r a b d
  have haccepts := Ty.accepts_self .text
  have hresolve : ∃ op, r.resolve "contains" [.field "t"] = .ok op ∧
      checkArguments op [.text "x"] = .ok () ∧
      checkArguments op [] = .error (.arityMismatch "contains" 1 0) :=
    ⟨_, resolve_eq_ok_iff.2 ⟨Builtins.contains, .text, rfl, rfl, rfl, if_pos haccepts⟩, rfl, rfl⟩
  obtain ⟨op, hop, harguments, hfew⟩ := hresolve
  have ha : r.checkDraft a.toDraft = .ok a := checkDraft_toDraft ⟨op, hop, harguments⟩
  have hb : r.checkDraft b = .error (.arityMismatch "contains" 1 0) :=
    checkDraft_eq_error_iff.2 (.arguments rfl rfl hop hfew)
  have hleaf : r.normalize (.leaf a.toDraft) = .ok (.leaf a) := by
    rw [normalize_leaf, ha]
    rfl
  have hfails : r.normalize (.leaf b) = .error (.arityMismatch "contains" 1 0) := by
    rw [normalize_leaf, hb]
    rfl
  have hd : r.normalize d = .ok (.group "g" .and false [.leaf a]) := by
    simp only [d, normalize, Rule.prune, Rule.pruneList, ha, hb]
    rfl
  have hincomplete : b.readiness r.registry = .incomplete [.arguments 1 0] := rfl
  obtain ⟨hready, hmissing, hlack, hrule⟩ := readiness_agrees r.registry
  exact ⟨⟨hleaf, hready _ _ _ _ hleaf⟩, ⟨hincomplete, hmissing _ _ hincomplete⟩,
    ⟨hfails, hlack _ _ _ _ _ hfails rfl⟩, hd, hrule d _ _ _ hd⟩

/-- A comparison has its parameters from the field, so without an argument it is ready, and it is
normalization that counts. -/
example : let r : Resolver := ⟨(Registry.empty .filter).registerAll Builtins.filters,
      .record [("n", .int)], fun _ _ => true⟩
    let f : Draft := ⟨"f", some [.field "n"], some "greater than", [], none⟩
    f.readiness r.registry = .ready ∧
      r.checkDraft f = .error (.arityMismatch "greater than" 1 0) :=
  ⟨rfl, rfl⟩

end Resolver

end RecordRules
