import RecordRules.Proofs.Rule.Leaves

/-!
# Reading rules

The outcome of a rule is read off those of its parts: an `and` has the outcome of its first
condition that is not true, and an `or` of its first one that is not false (`Rule.Outcome`).
Evaluation, which goes from left to right and stops, has this outcome (`eval_eq_iff`).  So
whatever stands behind the condition that decides does not matter (`DiffersBehind.eval_eq`).
-/

namespace RecordRules.Rule

variable {α β ε : Type}

/-- The direct reading of a rule, from what its filters tell.  A failure is an outcome as well, but
only a result is inverted. -/
inductive Outcome (tells : α → Except ε Bool → Prop) : Rule α → Except ε Bool → Prop where
  | leaf {a : α} {o : Except ε Bool} : tells a o → Outcome tells (.leaf a) o
  | empty {id : String} {op : Connective} {invert : Bool} :
      Outcome tells (.group id op invert []) (.ok (true != invert))
  /-- No condition decides. -/
  | undecided {id : String} {op : Connective} {invert : Bool} {conditions : List (Rule α)} :
      conditions ≠ [] → (∀ c ∈ conditions, Outcome tells c (.ok op.neutral)) →
      Outcome tells (.group id op invert conditions) (.ok (op.neutral != invert))
  /-- The first condition with another outcome decides. -/
  | decided {id : String} {op : Connective} {invert : Bool} {before after : List (Rule α)}
      {c : Rule α} {o : Except ε Bool} :
      (∀ b ∈ before, Outcome tells b (.ok op.neutral)) → Outcome tells c o →
      o ≠ .ok op.neutral →
      Outcome tells (.group id op invert (before ++ c :: after)) (o.map (· != invert))

/-- The rules differ in conditions that stand behind one that decides their group. -/
inductive DiffersBehind (tells : α → Except ε Bool → Prop) : Rule α → Rule α → Prop where
  | behind {id : String} {op : Connective} {invert : Bool} {before after after' : List (Rule α)}
      {c : Rule α} {o : Except ε Bool} :
      (∀ b ∈ before, Outcome tells b (.ok op.neutral)) → Outcome tells c o →
      o ≠ .ok op.neutral →
      DiffersBehind tells (.group id op invert (before ++ c :: after))
        (.group id op invert (before ++ c :: after'))
  | inside {id : String} {op : Connective} {invert : Bool} {before after : List (Rule α)}
      {c c' : Rule α} :
      DiffersBehind tells c c' →
      DiffersBehind tells (.group id op invert (before ++ c :: after))
        (.group id op invert (before ++ c' :: after))

/-! ## Conditions side by side -/

section

variable {test : α → Except ε Bool} {op : Connective}

/-- Conditions that have the same results side by side have the same result together. -/
theorem evalConditions_congr {test' : β → Except ε Bool} {conditions : List (Rule α)}
    {conditions' : List (Rule β)}
    (h : List.Forall₂ (fun c c' => c.eval test = c'.eval test') conditions conditions') :
    evalConditions test op conditions = evalConditions test' op conditions' := by
  induction h with
  | nil => rw [evalConditions_nil, evalConditions_nil]
  | @cons c c' rest rest' hc _ ih =>
    by_cases hneutral : c.eval test = .ok op.neutral
    · rw [evalConditions_cons_of_neutral hneutral,
        evalConditions_cons_of_neutral (hc.symm.trans hneutral), ih]
    · rw [evalConditions_cons_of_ne hneutral, evalConditions_cons_of_ne (hc ▸ hneutral), hc]

/-- Groups have the same value when their conditions have the same values in turn. -/
theorem eval_group_congr {test' : β → Except ε Bool} {conditions : List (Rule α)}
    {conditions' : List (Rule β)}
    (h : List.Forall₂ (fun c c' => c.eval test = c'.eval test') conditions conditions')
    (id : String) (op : Connective) (invert : Bool) :
    (group id op invert conditions).eval test = (group id op invert conditions').eval test' := by
  by_cases hnil : conditions = []
  · subst hnil
    obtain rfl := List.forall₂_nil_left_iff.1 h
    rw [eval_group_nil, eval_group_nil]
  · have hnil' : conditions' ≠ [] := by
      rintro rfl
      exact hnil (List.forall₂_nil_right_iff.1 h)
    rw [eval_group_of_ne_nil hnil, eval_group_of_ne_nil hnil', evalConditions_congr h]

/-- The value of a group goes by the values of its conditions in their order. -/
def Compositional (F : Rule α → β) : Prop :=
  ∀ id op invert conditions conditions', conditions.map F = conditions'.map F →
    F (group id op invert conditions) = F (group id op invert conditions')

/-- A condition may be exchanged for one with the same value. -/
theorem Compositional.inside {F : Rule α → β} (hF : Compositional F) {c c' : Rule α}
    (h : F c = F c') (id : String) (op : Connective) (invert : Bool)
    (before after : List (Rule α)) : F (group id op invert (before ++ c :: after)) =
      F (group id op invert (before ++ c' :: after)) := by
  apply hF
  rw [List.map_append, List.map_append, List.map_cons, List.map_cons, h]

/-- The value of a group goes by those of its conditions, errors included. -/
theorem compositional_eval (test : α → Except ε Bool) : Compositional (eval test) := by
  intro id op invert conditions conditions' h
  rw [← List.forall₂_eq_eq_eq, List.forall₂_map_left_iff, List.forall₂_map_right_iff] at h
  exact eval_group_congr h id op invert

end

/-! ## Evaluation -/

section

variable {tells : α → Except ε Bool → Prop} {test : α → Except ε Bool} {r r' : Rule α}
  {o : Except ε Bool}

/-- Evaluation has the outcome of the rule, if each filter tells what the test has for it. -/
theorem Outcome.eval_eq (htest : ∀ a o, tells a o → test a = o) (h : r.Outcome tells o) :
    r.eval test = o := by
  induction h with
  | leaf ho => exact htest _ _ ho
  | empty => exact eval_group_nil ..
  | @undecided id op invert conditions hne _ ih =>
    have hall : evalConditions test op conditions = .ok op.neutral := by
      rw [← List.append_nil conditions, evalConditions_append ih, evalConditions_nil]
    rw [eval_group_of_ne_nil hne, hall]
    rfl
  | @decided id op invert before after c o _ _ hdecides ihbefore ihc =>
    have hfirst : evalConditions test op (before ++ c :: after) = o := by
      rw [evalConditions_append ihbefore, evalConditions_cons_of_ne (ihc ▸ hdecides), ihc]
    rw [eval_group_of_ne_nil (by simp), hfirst]

/-- A rule has an outcome if each of its filters tells one. -/
theorem exists_outcome (h : ∀ a ∈ r.leaves, ∃ o, tells a o) : ∃ o, r.Outcome tells o := by
  induction r with
  | leaf a =>
    obtain ⟨o, ho⟩ := h a (mem_leaves_leaf.2 rfl)
    exact ⟨o, .leaf ho⟩
  | group id op invert conditions ih =>
    have hconditions : ∀ c ∈ conditions, ∃ o, c.Outcome tells o := fun c hc =>
      ih c hc fun a ha => h a (mem_leaves_group.2 ⟨c, hc, ha⟩)
    by_cases hnil : conditions = []
    · subst hnil
      exact ⟨_, .empty⟩
    -- either all conditions let the group go on, or the first that does not decides
    by_cases hall : ∀ c ∈ conditions, c.Outcome tells (.ok op.neutral)
    · exact ⟨_, .undecided hnil hall⟩
    · obtain ⟨before, c, after, rfl, hbefore, hc⟩ := exists_first hall
      obtain ⟨o, ho⟩ := hconditions c (by simp)
      have hdecides : o ≠ .ok op.neutral := by
        rintro rfl
        exact hc ho
      exact ⟨_, .decided hbefore ho hdecides⟩

/-- Evaluation has the outcome of the rule and no other. -/
theorem eval_eq_iff (htest : ∀ a o, tells a o → test a = o)
    (hleaves : ∀ a ∈ r.leaves, ∃ o, tells a o) : r.eval test = o ↔ r.Outcome tells o := by
  refine ⟨fun h => ?_, Outcome.eval_eq htest⟩
  obtain ⟨p, hp⟩ := exists_outcome hleaves
  rwa [← h, hp.eval_eq htest]

/-- Conditions behind the one that decides are not asked. -/
theorem DiffersBehind.eval_eq (htest : ∀ a o, tells a o → test a = o)
    (h : r.DiffersBehind tells r') : r.eval test = r'.eval test := by
  induction h with
  | behind hbefore hc hdecides =>
    rw [(Outcome.decided hbefore hc hdecides).eval_eq htest,
      (Outcome.decided hbefore hc hdecides).eval_eq htest]
  | inside _ ih => exact (compositional_eval test).inside ih _ _ _ _ _

/-- Filters are tested as they are compiled. -/
theorem eval_of_traverse {f : α → Except ε β} {test : β → Except ε Bool} {s : Rule β}
    (h : r.traverse f = .ok s) : s.eval test = r.eval fun a => f a >>= test := by
  induction r generalizing s with
  | leaf a =>
    obtain ⟨b, hb, rfl⟩ := map_eq_ok_iff.1 h
    rw [eval, eval, hb]
    rfl
  | group id op invert conditions ih =>
    rw [traverse, traverseList_eq, map_eq_ok_iff] at h
    obtain ⟨ss, hss, rfl⟩ := h
    have hpairs := (List.forall₂_and_left _ _).2
      ⟨fun c hc s hs => ih c hc (s := s) hs, mapM_eq_ok_iff.1 hss⟩
    exact eval_group_congr (hpairs.imp fun c s hs => hs.1 s hs.2).flip id op invert

end

end RecordRules.Rule
