import RecordRules.Predicate
import RecordRules.Proofs.Outcome

/-!
# Rules by their filters

Compiling and testing a rule go by its filters: what each of them passes through is what the whole
rule passes through.
-/

namespace RecordRules

/-- The result of a condition that lets its group go on, and of the group if all of them do. -/
def Connective.neutral : Connective → Bool
  | .and => true
  | .or => false

namespace Rule

variable {α β γ ε : Type}

/-- Each filter of `s` is what a filter of `r` becomes. -/
def Made (f : α → Except ε β) (s : Rule β) (r : Rule α) : Prop :=
  ∀ b ∈ s.leaves, ∃ a ∈ r.leaves, f a = .ok b

/-! ## Other filters -/

/-- Mapping a rule maps its filters in their order. -/
theorem leaves_map (f : α → β) (r : Rule α) : (r.map f).leaves = r.leaves.map f := by
  induction r with
  | leaf a => rfl
  | group id op invert conditions ih =>
    simp only [map, mapList_eq, leaves, leavesOf_eq, List.flatMap_map, List.map_flatMap]
    exact List.flatMap_congr ih

/-- Two mappings one after the other are one mapping. -/
theorem map_map (f : α → β) (g : β → γ) (r : Rule α) : (r.map f).map g = r.map (g ∘ f) := by
  induction r with
  | leaf a => rfl
  | group id op invert conditions ih =>
    simp only [map, mapList_eq, List.map_map]
    exact congrArg _ (List.map_congr_left ih)

/-- A rule stays as it is if its filters do. -/
theorem map_eq_self_of_leaves {f : α → α} {r : Rule α} (h : ∀ a ∈ r.leaves, f a = a) :
    r.map f = r := by
  induction r with
  | leaf a => rw [map, h a (mem_leaves_leaf.2 rfl)]
  | group id op invert conditions ih =>
    rw [map, mapList_eq, map_eq_self fun c hc =>
      ih c hc fun a ha => h a (mem_leaves_group.2 ⟨c, hc, ha⟩)]

/-! ## Counting -/

/-- Filters are counted as they are listed, provided they are so in each rule. -/
theorem leafCountOf_eq {rs : List (Rule α)} (h : ∀ r ∈ rs, r.leafCount = r.leaves.length) :
    leafCountOf rs = (leavesOf rs).length := by
  induction rs with
  | nil => rfl
  | cons r rest ih =>
    obtain ⟨hr, hrest⟩ := List.forall_mem_cons.1 h
    rw [leafCountOf, leavesOf, List.length_append, hr, ih hrest]

/-- The count of filters is the length of their list. -/
theorem leafCount_eq (r : Rule α) : r.leafCount = r.leaves.length := by
  induction r with
  | leaf a => rfl
  | group id op invert conditions ih => exact leafCountOf_eq ih

/-! ## Compiling -/

section

variable {f : α → Except ε β} {r : Rule α} {s : Rule β}

/-- The conditions of a group are traversed one after the other. -/
theorem traverseList_eq (f : α → Except ε β) (rs : List (Rule α)) :
    traverseList f rs = rs.mapM (traverse f) := by
  induction rs with
  | nil => rfl
  | cons r rest ih => rw [traverseList, ih, List.mapM_cons]

/-- Traversing several rules traverses their filters, provided it does so in each rule. -/
theorem leavesOf_traverseList {rs : List (Rule α)}
    (h : ∀ r ∈ rs, (r.traverse f).map leaves = r.leaves.mapM f) :
    (traverseList f rs).map leavesOf = (leavesOf rs).mapM f := by
  induction rs with
  | nil => rfl
  | cons r rest ih =>
    obtain ⟨hr, hrest⟩ := List.forall_mem_cons.1 h
    rw [traverseList, leavesOf, List.mapM_append, ← hr, ← ih hrest]
    cases r.traverse f <;> cases traverseList f rest <;> rfl

/-- The filters of a rule are taken one after the other, from left to right. -/
theorem leaves_traverse (f : α → Except ε β) (r : Rule α) :
    (r.traverse f).map leaves = r.leaves.mapM f := by
  induction r with
  | leaf a =>
    rw [traverse, leaves, List.mapM_cons]
    cases f a <;> rfl
  | group id op invert conditions ih =>
    rw [traverse, leaves, ← leavesOf_traverseList ih]
    cases traverseList f conditions <;> rfl

/-- A rule can be traversed when each of its filters is accepted. -/
theorem exists_traverse_eq_ok_iff :
    (∃ s, r.traverse f = .ok s) ↔ ∀ a ∈ r.leaves, ∃ b, f a = .ok b := by
  rw [← exists_mapM_eq_ok_iff, ← leaves_traverse]
  cases r.traverse f <;> simp [Except.map]

/-- The error of a traversal is that of the first filter to be refused. -/
theorem traverse_eq_error_iff {e : ε} : r.traverse f = .error e ↔ FailsFirst f r.leaves e := by
  rw [← mapM_eq_error_iff, ← leaves_traverse, map_eq_error_iff]

/-- A traversal makes each filter of its result from the filter in the same position. -/
theorem forall₂_leaves_of_traverse (h : r.traverse f = .ok s) :
    List.Forall₂ (fun a b => f a = .ok b) r.leaves s.leaves := by
  rw [← mapM_eq_ok_iff, ← leaves_traverse, h]
  rfl

/-- A traversal that is never refused is a mapping. -/
theorem traverse_eq_map {g : α → β} (h : ∀ a ∈ r.leaves, f a = .ok (g a)) :
    r.traverse f = .ok (r.map g) := by
  induction r with
  | leaf a => rw [traverse, h a (mem_leaves_leaf.2 rfl), Except.map, map]
  | group id op invert conditions ih =>
    rw [traverse, traverseList_eq, map, mapList_eq, map_eq_ok_iff]
    refine ⟨conditions.map (map g), mapM_eq_ok_iff.2 (List.forall₂_map_right_iff.2 ?_), rfl⟩
    refine List.forall₂_same.2 fun c hc => ?_
    exact ih c hc fun a ha => h a (mem_leaves_group.2 ⟨c, hc, ha⟩)

/-- Another way to compile that does the same with each of its filters compiles the rule alike. -/
theorem traverse_eq_ok_of_leaves {g : α → Except ε β}
    (h : ∀ a ∈ r.leaves, ∀ b, f a = .ok b → g a = .ok b) (hs : r.traverse f = .ok s) :
    r.traverse g = .ok s := by
  induction r generalizing s with
  | leaf a =>
    obtain ⟨b, hb, rfl⟩ := map_eq_ok_iff.1 hs
    rw [traverse, h a (mem_leaves_leaf.2 rfl) b hb, Except.map]
  | group id op invert conditions ih =>
    rw [traverse, traverseList_eq, map_eq_ok_iff] at hs ⊢
    obtain ⟨ss, hss, rfl⟩ := hs
    refine ⟨ss, mapM_eq_ok_iff.2 (forall₂_imp_of_mem (mapM_eq_ok_iff.1 hss) ?_), rfl⟩
    intro c hc s hs
    exact ih c hc (fun a ha => h a (mem_leaves_group.2 ⟨c, hc, ha⟩)) hs

/-- No filter of the result comes from anywhere but the rule. -/
theorem made_of_traverse (h : r.traverse f = .ok s) : Made f s r := fun _ hb =>
  exists_mem_of_forall₂ (forall₂_leaves_of_traverse h) hb

/-- Only the filters of a rule become others, and each of them on its own. -/
theorem map_eq_map_of_traverse {g : α → γ} {h : β → γ} (hf : ∀ a b, f a = .ok b → g a = h b)
    (hs : r.traverse f = .ok s) : r.map g = s.map h := by
  induction r generalizing s with
  | leaf a =>
    obtain ⟨b, hb, rfl⟩ := map_eq_ok_iff.1 hs
    rw [map, map, hf a b hb]
  | group id op invert conditions ih =>
    rw [traverse, traverseList_eq, map_eq_ok_iff] at hs
    obtain ⟨ss, hss, rfl⟩ := hs
    rw [map, map, mapList_eq, mapList_eq,
      map_eq_map_of_forall₂ (mapM_eq_ok_iff.1 hss) fun c hc s hs => ih c hc hs]

end

/-! ## Testing -/

/-- The result of a group before inversion, unless it is empty. -/
def evalConditions (test : α → Except ε Bool) : Connective → List (Rule α) → Except ε Bool
  | .and => evalAll test
  | .or => evalAny test

section

variable {test : α → Except ε Bool} {op : Connective} {c : Rule α} {rest : List (Rule α)}

/-- An empty group is true, or false when it is inverted, and no filter is asked. -/
theorem eval_group_nil (test : α → Except ε Bool) (id : String) (op : Connective)
    (invert : Bool) : (group id op invert []).eval test = .ok (true != invert) := by
  cases op <;> rfl

/-- Otherwise the value of a group is that of its conditions, inverted as the group says. -/
theorem eval_group_of_ne_nil {conditions : List (Rule α)} (h : conditions ≠ [])
    (test : α → Except ε Bool) (id : String) (op : Connective) (invert : Bool) :
    (group id op invert conditions).eval test =
      (evalConditions test op conditions).map (· != invert) := by
  obtain ⟨c, rest, rfl⟩ := List.exists_cons_of_ne_nil h
  cases op <;> rfl

/-- A plain conjunction is true when all its conditions are, also when it has none. -/
theorem eval_and (test : α → Except ε Bool) (id : String) (conditions : List (Rule α)) :
    (group id .and false conditions).eval test = evalAll test conditions := by
  rw [eval]
  cases evalAll test conditions with
  | error e => rfl
  | ok b => cases b <;> rfl

/-- Conditions that all gave the neutral value give the neutral value together. -/
theorem evalConditions_nil (test : α → Except ε Bool) (op : Connective) :
    evalConditions test op [] = .ok op.neutral := by
  cases op <;> rfl

/-- A condition with the neutral value decides nothing. -/
theorem evalConditions_cons_of_neutral (h : c.eval test = .ok op.neutral) :
    evalConditions test op (c :: rest) = evalConditions test op rest := by
  cases op <;> simp only [evalConditions, evalAll, evalAny, h] <;> rfl

/-- Any other condition decides, be it by its value or by its error, and the rest is not asked. -/
theorem evalConditions_cons_of_ne (h : c.eval test ≠ .ok op.neutral) :
    evalConditions test op (c :: rest) = c.eval test := by
  cases hc : c.eval test with
  | error e => cases op <;> simp only [evalConditions, evalAll, evalAny, hc] <;> rfl
  | ok b =>
    have hb : b = !op.neutral := Bool.eq_not.2 fun hb => h (by rw [hc, hb])
    subst hb
    cases op <;> simp only [evalConditions, evalAll, evalAny, hc] <;> rfl

/-- Conditions with the neutral value in front of others decide nothing. -/
theorem evalConditions_append {before : List (Rule α)}
    (h : ∀ b ∈ before, b.eval test = .ok op.neutral) :
    evalConditions test op (before ++ rest) = evalConditions test op rest := by
  induction before with
  | nil => rfl
  | cons b before ih =>
    obtain ⟨hb, hbefore⟩ := List.forall_mem_cons.1 h
    rw [List.cons_append, evalConditions_cons_of_neutral hb, ih hbefore]

/-- Conditions have a value together when each of them has one. -/
theorem exists_evalConditions_eq_ok {conditions : List (Rule α)}
    (h : ∀ c ∈ conditions, ∃ b, c.eval test = .ok b) :
    ∃ b, evalConditions test op conditions = .ok b := by
  induction conditions with
  | nil => exact ⟨_, evalConditions_nil test op⟩
  | cons c rest ih =>
    obtain ⟨⟨b, hb⟩, hrest⟩ := List.forall_mem_cons.1 h
    by_cases hneutral : c.eval test = .ok op.neutral
    · rw [evalConditions_cons_of_neutral hneutral]
      exact ih hrest
    · rw [evalConditions_cons_of_ne hneutral]
      exact ⟨b, hb⟩

/-- A rule has a result if all its filters have one. -/
theorem exists_eval_eq_ok {r : Rule α} (h : ∀ a ∈ r.leaves, ∃ b, test a = .ok b) :
    ∃ b, r.eval test = .ok b := by
  induction r with
  | leaf a => exact h a (mem_leaves_leaf.2 rfl)
  | group id op invert conditions ih =>
    have hconditions : ∀ c ∈ conditions, ∃ b, c.eval test = .ok b := fun c hc =>
      ih c hc fun a ha => h a (mem_leaves_group.2 ⟨c, hc, ha⟩)
    by_cases hnil : conditions = []
    · subst hnil
      exact ⟨_, eval_group_nil test id op invert⟩
    · obtain ⟨b, hb⟩ := exists_evalConditions_eq_ok hconditions
      rw [eval_group_of_ne_nil hnil, hb]
      exact ⟨b != invert, rfl⟩

/-- An error of several conditions is that of one of them. -/
theorem exists_condition_of_evalConditions_eq_error {e : ε} {conditions : List (Rule α)}
    (h : evalConditions test op conditions = .error e) :
    ∃ c ∈ conditions, c.eval test = .error e := by
  induction conditions with
  | nil =>
    rw [evalConditions_nil] at h
    cases h
  | cons c rest ih =>
    by_cases hneutral : c.eval test = .ok op.neutral
    · rw [evalConditions_cons_of_neutral hneutral] at h
      obtain ⟨c', hc', herror⟩ := ih h
      exact ⟨c', .tail _ hc', herror⟩
    · rw [evalConditions_cons_of_ne hneutral] at h
      exact ⟨c, .head _, h⟩

/-- A rule fails only as one of its filters does. -/
theorem exists_leaf_of_eval_eq_error {e : ε} {r : Rule α} (h : r.eval test = .error e) :
    ∃ a ∈ r.leaves, test a = .error e := by
  induction r with
  | leaf a => exact ⟨a, mem_leaves_leaf.2 rfl, h⟩
  | group id op invert conditions ih =>
    by_cases hnil : conditions = []
    · subst hnil
      rw [eval_group_nil] at h
      cases h
    · rw [eval_group_of_ne_nil hnil, map_eq_error_iff] at h
      obtain ⟨c, hc, herror⟩ := exists_condition_of_evalConditions_eq_error h
      obtain ⟨a, ha, herror⟩ := ih c hc herror
      exact ⟨a, mem_leaves_group.2 ⟨c, hc, ha⟩, herror⟩

end

end Rule

end RecordRules
