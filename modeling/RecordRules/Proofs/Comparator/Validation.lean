import RecordRules.Builtins
import RecordRules.Comparator
import RecordRules.Proofs.Outcome

/-!
# What keeps a sort rule from compiling

Compiling a sort rule stops at the first item that does not resolve, and its validation goes on to
list them all.  The two go by the same items: the first that is listed is the one at which compiling
stops, and those that are listed are the ones that do not compile on their own
(`validateSort_exact`).
-/

namespace RecordRules.Resolver

variable {r : Resolver} {item : SortItem} {rule : SortRule} {i k : Nat} {issue : Issue}
  {e : EvalError}

/-- The operation of an item on its field. -/
def resolveItem (r : Resolver) (item : SortItem) : Except Issue StandardOperation :=
  r.resolve item.operation item.path

/-! ## Compiling -/

/-- An item is bound when its operation resolves. -/
theorem exists_bindItem_eq_ok_iff :
    (∃ key, r.bindItem item = .ok key) ↔ ∃ op, r.resolveItem item = .ok op := by
  unfold bindItem resolveItem
  cases r.resolve item.operation item.path <;> simp

/-- An item that is not bound fails with the issue of its operation. -/
theorem bindItem_eq_error_iff : r.bindItem item = .error e ↔
    ∃ issue, e = .unresolved issue ∧ r.resolveItem item = .error issue := by
  unfold bindItem resolveItem
  cases r.resolve item.operation item.path <;> simp [eq_comm]

/-- The first item that is not bound is the first that does not resolve. -/
theorem failsFirst_bindItem_iff : FailsFirst r.bindItem rule e ↔
    ∃ issue, e = .unresolved issue ∧ FailsFirst r.resolveItem rule issue := by
  simp only [FailsFirst, exists_bindItem_eq_ok_iff, bindItem_eq_error_iff]
  constructor
  · rintro ⟨before, item, after, hrule, hbefore, issue, he, hitem⟩
    exact ⟨issue, he, before, item, after, hrule, hbefore, hitem⟩
  · rintro ⟨issue, he, before, item, after, hrule, hbefore, hitem⟩
    exact ⟨before, item, after, hrule, hbefore, issue, he, hitem⟩

/-- Compiling fails with the issue of the first item that does not resolve. -/
theorem compileSort_eq_error_iff : r.compileSort rule = .error e ↔
    ∃ issue, e = .unresolved issue ∧ FailsFirst r.resolveItem rule issue := by
  rw [compileSort, map_eq_error_iff, mapM_eq_error_iff, failsFirst_bindItem_iff]

/-- A rule of one item fails to compile when this item does not resolve. -/
theorem compileSort_singleton_eq_error_iff : r.compileSort [item] = .error e ↔
    ∃ issue, e = .unresolved issue ∧ r.resolveItem item = .error issue := by
  simp [compileSort_eq_error_iff, failsFirst_cons]

/-! ## Listing -/

/-- An item that resolves is not listed. -/
theorem issuesFrom_cons_of_ok {op : StandardOperation} (h : r.resolveItem item = .ok op) (i : Nat)
    (rule : SortRule) : r.issuesFrom i (item :: rule) = r.issuesFrom (i + 1) rule := by
  rw [resolveItem] at h
  rw [issuesFrom, h]

/-- Any other item is listed with its position. -/
theorem issuesFrom_cons_of_error (h : r.resolveItem item = .error issue) (i : Nat)
    (rule : SortRule) :
    r.issuesFrom i (item :: rule) = (i, issue) :: r.issuesFrom (i + 1) rule := by
  rw [resolveItem] at h
  rw [issuesFrom, h]

/-- What is listed are the items that do not resolve, each by its distance from the first one. -/
theorem mem_issuesFrom_iff : (k, issue) ∈ r.issuesFrom i rule ↔
    ∃ j item, rule[j]? = some item ∧ k = i + j ∧ r.resolveItem item = .error issue := by
  induction rule generalizing i with
  | nil => simp [issuesFrom]
  | cons first rest ih =>
    -- the item at the front, or one that stands one position further on
    have hsplit : (∃ j item, (first :: rest)[j]? = some item ∧ k = i + j ∧
          r.resolveItem item = .error issue) ↔
        k = i ∧ r.resolveItem first = .error issue ∨ (k, issue) ∈ r.issuesFrom (i + 1) rest := by
      rw [ih]
      constructor
      · rintro ⟨_ | j, item, hitem, rfl, hissue⟩
        · obtain rfl := Option.some.inj hitem
          exact .inl ⟨rfl, hissue⟩
        · exact .inr ⟨j, item, hitem, by omega, hissue⟩
      · rintro (⟨rfl, hissue⟩ | ⟨j, item, hitem, rfl, hissue⟩)
        · exact ⟨0, first, rfl, rfl, hissue⟩
        · exact ⟨j + 1, item, hitem, by omega, hissue⟩
    rw [hsplit]
    cases hfirst : r.resolveItem first with
    | ok op => simp [issuesFrom_cons_of_ok hfirst]
    | error issue' => simp [issuesFrom_cons_of_error hfirst, eq_comm]

/-- The positions of the issues ascend. -/
theorem pairwise_issuesFrom (r : Resolver) (i : Nat) (rule : SortRule) :
    (r.issuesFrom i rule).Pairwise fun x y => x.1 < y.1 := by
  induction rule generalizing i with
  | nil => exact .nil
  | cons item rest ih =>
    cases hitem : r.resolveItem item with
    | ok op =>
      rw [issuesFrom_cons_of_ok hitem]
      exact ih (i + 1)
    | error issue =>
      rw [issuesFrom_cons_of_error hitem, List.pairwise_cons]
      refine ⟨?_, ih (i + 1)⟩
      rintro ⟨k, issue'⟩ hk
      obtain ⟨j, -, -, rfl, -⟩ := mem_issuesFrom_iff.1 hk
      dsimp only
      omega

/-- The first entry is the item at which a scan stops. -/
theorem failsFirst_resolveItem_iff : FailsFirst r.resolveItem rule issue ↔
    ∃ k, (r.issuesFrom i rule).head? = some (k, issue) := by
  induction rule generalizing i with
  | nil => simp [issuesFrom]
  | cons item rest ih =>
    rw [failsFirst_cons]
    cases hitem : r.resolveItem item with
    | ok op => simpa [issuesFrom_cons_of_ok hitem] using ih
    | error issue' => simp [issuesFrom_cons_of_error hitem]

/-! ## Both together -/

/-- The issues are those of the items that do not resolve, at their positions. -/
theorem mem_validateSort_iff : (k, issue) ∈ r.validateSort rule ↔
    ∃ item, rule[k]? = some item ∧ r.resolveItem item = .error issue := by
  rw [validateSort, mem_issuesFrom_iff]
  constructor
  · rintro ⟨j, item, hitem, rfl, hissue⟩
    rw [Nat.zero_add]
    exact ⟨item, hitem, hissue⟩
  · rintro ⟨item, hitem, hissue⟩
    exact ⟨k, item, hitem, (Nat.zero_add k).symm, hissue⟩

/-- Compiling fails with the first issue on the list. -/
theorem compileSort_eq_error_iff_head? : r.compileSort rule = .error e ↔
    ∃ k issue, (r.validateSort rule).head? = some (k, issue) ∧ e = .unresolved issue := by
  rw [compileSort_eq_error_iff, validateSort]
  constructor
  · rintro ⟨issue, he, hfails⟩
    obtain ⟨k, hk⟩ := failsFirst_resolveItem_iff.1 hfails
    exact ⟨k, issue, hk, he⟩
  · rintro ⟨k, issue, hk, he⟩
    exact ⟨issue, he, failsFirst_resolveItem_iff.2 ⟨k, hk⟩⟩

/-- A rule compiles when no issue is listed. -/
theorem exists_compileSort_eq_ok_iff :
    (∃ c, r.compileSort rule = .ok c) ↔ r.validateSort rule = [] := by
  have hfails : (∃ e, r.compileSort rule = .error e) ↔ r.validateSort rule ≠ [] := by
    simp only [compileSort_eq_error_iff_head?]
    constructor
    · rintro ⟨e, k, issue, hhead, -⟩ hnil
      rw [hnil] at hhead
      cases hhead
    · intro hne
      obtain ⟨x, rest, hlist⟩ := List.exists_cons_of_ne_nil hne
      exact ⟨_, x.1, x.2, by rw [hlist, List.head?_cons], rfl⟩
  rw [← isOk_iff, ← Bool.not_eq_false, ← exists_eq_error_iff, hfails, not_not]

/-- A sort rule compiles if validation lists nothing, and otherwise it fails with the issue of the
first entry.  The entries are the items that do not compile on their own, by position and with what
each of them fails with. -/
theorem validateSort_exact (r : Resolver) (rule : SortRule) :
    ((∃ c, r.compileSort rule = .ok c) ↔ r.validateSort rule = []) ∧
    (∀ e, r.compileSort rule = .error e ↔
      ∃ k issue, (r.validateSort rule).head? = some (k, issue) ∧ e = .unresolved issue) ∧
    (r.validateSort rule).Pairwise (fun x y => x.1 < y.1) ∧
    (∀ k issue, (k, issue) ∈ r.validateSort rule ↔
      ∃ item, rule[k]? = some item ∧ r.compileSort [item] = .error (.unresolved issue)) ∧
    ∀ k, (∃ issue, (k, issue) ∈ r.validateSort rule) ↔
      ∃ item e, rule[k]? = some item ∧ r.compileSort [item] = .error e := by
  refine ⟨exists_compileSort_eq_ok_iff, fun e => compileSort_eq_error_iff_head?,
    pairwise_issuesFrom r 0 rule, fun k issue => ?_, fun k => ?_⟩
  · simp [mem_validateSort_iff, compileSort_singleton_eq_error_iff]
  · simp only [mem_validateSort_iff, compileSort_singleton_eq_error_iff]
    constructor
    · rintro ⟨issue, item, hitem, hissue⟩
      exact ⟨item, _, hitem, issue, rfl, hissue⟩
    · rintro ⟨item, _, hitem, issue, -, hissue⟩
      exact ⟨issue, item, hitem, hissue⟩

/-- The item between two others that do not resolve is not listed, and counts as a position. -/
example : (validateSort ⟨⟨.sort, #[Builtins.compare], KeyMap.empty.insert "compare" 0⟩,
    .record [("n", .int)], Ty.accepts⟩
      [⟨[.field "m"], "compare", .asc⟩, ⟨[.field "n"], "compare", .desc⟩,
        ⟨[.field "n"], "length", .asc⟩]).map Prod.fst = [0, 2] := by
  decide +kernel

end RecordRules.Resolver
