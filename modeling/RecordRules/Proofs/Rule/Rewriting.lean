import Mathlib.Logic.Relation
import RecordRules.Proofs.Rule.Reading

/-!
# Rewriting rules

A rule may be rewritten at one of its nodes (`Within`).  What a function says of a group often goes
by what it says of the conditions in their order (`Compositional`), or just by which values it
takes on them (`Unordered`); such functions see no more of a rewriting than what it does to the
node (`Within.congr`).

There are two kinds of rewriting here.

* De Morgan's laws turn a group into its dual (`Dual`), where each condition and the group itself
  are inverted and the connective is the other one.  The dual stops at the same condition, so the
  two have the same outcome even if this is a failure (`Dual.eval_eq`).  A group without conditions
  is true under either connective and has no dual.
* Conditions may change places and come more than once (`Rearranged`).  In general the order can be
  observed, as evaluation stops early.  But where no filter fails a rule is the boolean formula of
  their results (`eval_eq_ok_truth`), which takes no notice of the order (`Rearranged.truth_eq`).
-/

namespace RecordRules

namespace Connective

/-- The other connective is neutral at the other value. -/
theorem neutral_toggle (op : Connective) : op.toggle.neutral = !op.neutral := by
  cases op <;> rfl

/-- Whether results hold together. -/
def joins : Connective → List Bool → Bool
  | .and, results => results.all fun b => b
  | .or, results => results.any fun b => b

/-- No results together are neutral. -/
theorem joins_nil (op : Connective) : op.joins [] = op.neutral := by
  cases op <;> rfl

/-- A neutral result does not count. -/
theorem joins_cons_of_neutral {op : Connective} (results : List Bool) :
    op.joins (op.neutral :: results) = op.joins results := by
  cases op <;> rfl

/-- A result that is not neutral decides. -/
theorem joins_cons_of_ne {op : Connective} {b : Bool} (h : b ≠ op.neutral)
    (results : List Bool) : op.joins (b :: results) = b := by
  obtain rfl := Bool.eq_not.2 h
  cases op <;> rfl

/-- Neither the order of the results nor their number matters. -/
theorem joins_congr {op : Connective} {results results' : List Bool}
    (h : ∀ b, b ∈ results ↔ b ∈ results') : op.joins results = op.joins results' := by
  rw [Bool.eq_iff_iff]
  cases op <;> simp only [joins, List.all_eq_true, List.any_eq_true, h]

end Connective

namespace Rule

variable {α β ε : Type}

/-! ## Rewriting a node -/

/-- The rules differ in one node, which is rewritten. -/
inductive Within (R : Rule α → Rule α → Prop) : Rule α → Rule α → Prop where
  | here {r r' : Rule α} : R r r' → Within R r r'
  | inside {id : String} {op : Connective} {invert : Bool} {before after : List (Rule α)}
      {c c' : Rule α} : Within R c c' →
      Within R (.group id op invert (before ++ c :: after))
        (.group id op invert (before ++ c' :: after))

section

variable {R : Rule α → Rule α → Prop} {F : Rule α → β} {r r' : Rule α}

/-- The value of a group goes by which values its conditions have. -/
def Unordered (F : Rule α → β) : Prop :=
  ∀ id op invert conditions conditions', (∀ b, b ∈ conditions.map F ↔ b ∈ conditions'.map F) →
    F (group id op invert conditions) = F (group id op invert conditions')

/-- What goes by the set of values of the conditions goes by their list all the more. -/
theorem Unordered.compositional (h : Unordered F) : Compositional F :=
  fun id op invert conditions conditions' hmap =>
    h id op invert conditions conditions' fun b => by rw [hmap]

/-- What a rewriting keeps of a node it keeps of the rule. -/
theorem Within.congr (hF : Compositional F) (hR : ∀ r r', R r r' → F r = F r')
    (h : Within R r r') : F r = F r' := by
  induction h with
  | here h => exact hR _ _ h
  | inside _ ih => exact hF.inside ih _ _ _ _ _

end

/-- What is read off the filters of a group goes by its conditions. -/
theorem compositional_leaves (key : α → β) :
    Compositional fun r : Rule α => r.leaves.map key := by
  have hgroup : ∀ id op invert (conditions : List (Rule α)),
      (group id op invert conditions).leaves.map key =
        (conditions.map fun r => r.leaves.map key).flatten := by
    intro id op invert conditions
    rw [leaves, leavesOf_eq, List.map_flatMap, List.flatMap_def]
  intro id op invert conditions conditions' h
  simp only [hgroup, h]

/-- Whether a group has some filter does not depend on the order of its conditions. -/
theorem unordered_mem_leaves (a : α) : Unordered fun r : Rule α => a ∈ r.leaves := by
  have hgroup : ∀ id op invert (conditions : List (Rule α)),
      (a ∈ (group id op invert conditions).leaves) =
        ∃ p ∈ conditions.map fun r => a ∈ r.leaves, p := by
    intro id op invert conditions
    simp only [mem_leaves_group, List.mem_map, exists_exists_and_eq_and]
  intro id op invert conditions conditions' h
  simp only [hgroup, h]

/-! ## De Morgan's laws -/

/-- The same rule with its own result inverted; `invert` does so for a filter. -/
def invertedBy (invert : α → α) : Rule α → Rule α
  | leaf a => leaf (invert a)
  | group id op inverted conditions => group id op (!inverted) conditions

/-- The other connective in place of that of a group, between inverted conditions, and the result
inverted. -/
inductive Dual (invert : α → α) : Rule α → Rule α → Prop where
  | dual {id : String} {op : Connective} {inverted : Bool} {conditions : List (Rule α)} :
      conditions ≠ [] →
      Dual invert (.group id op inverted conditions)
        (.group id op.toggle (!inverted) (conditions.map (invertedBy invert)))

section

variable {invert : α → α} {r r' : Rule α}

/-- Inverting filters keeps what the inversion does not touch. -/
theorem leaves_invertedBy {key : α → β} (hkey : ∀ a, key (invert a) = key a) (r : Rule α) :
    (r.invertedBy invert).leaves.map key = r.leaves.map key := by
  cases r with
  | leaf a => rw [invertedBy, leaves, leaves, List.map_singleton, List.map_singleton, hkey]
  | group id op inverted conditions => rfl

/-- Both sides of De Morgan's law have the same filters but for the inversion. -/
theorem Dual.leaves_eq {key : α → β} (hkey : ∀ a, key (invert a) = key a)
    (h : r.Dual invert r') : r.leaves.map key = r'.leaves.map key := by
  cases h with
  | @dual id op inverted conditions =>
    rw [leaves, leaves, leavesOf_eq, leavesOf_eq, List.map_flatMap, List.map_flatMap,
      List.flatMap_map]
    exact (List.flatMap_congr fun c _ => leaves_invertedBy hkey c).symm

/-- They have them also when the law is used at a node further down. -/
theorem Within.dual_leaves_eq {key : α → β} (hkey : ∀ a, key (invert a) = key a)
    (h : Within (Dual invert) r r') : r.leaves.map key = r'.leaves.map key :=
  h.congr (compositional_leaves key) fun _ _ hdual => hdual.leaves_eq hkey

variable {test : α → Except ε Bool} (htest : ∀ a, test (invert a) = (test a).map (!·))
include htest

/-- Only a result is inverted, a failure stays. -/
theorem eval_invertedBy (r : Rule α) :
    (r.invertedBy invert).eval test = (r.eval test).map (!·) := by
  cases r with
  | leaf a => exact htest a
  | group id op inverted conditions =>
    by_cases hnil : conditions = []
    · subst hnil
      rw [invertedBy, eval_group_nil, eval_group_nil, Except.map, Bool.bne_not]
    · rw [invertedBy, eval_group_of_ne_nil hnil, eval_group_of_ne_nil hnil]
      cases evalConditions test op conditions with
      | error e => rfl
      | ok b => rw [Except.map, Except.map, Except.map, Bool.bne_not]

/-- A condition lets its group go on exactly when its inverse lets the dual group go on. -/
theorem eval_invertedBy_eq_neutral_iff (op : Connective) (r : Rule α) :
    (r.invertedBy invert).eval test = .ok op.toggle.neutral ↔ r.eval test = .ok op.neutral := by
  rw [eval_invertedBy htest, Connective.neutral_toggle, map_eq_ok_iff]
  simp

/-- De Morgan's law for conditions that are evaluated in turn: the inverted ones stop at the same
place under the other connective. -/
theorem evalConditions_toggle (op : Connective) (conditions : List (Rule α)) :
    evalConditions test op.toggle (conditions.map (invertedBy invert)) =
      (evalConditions test op conditions).map (!·) := by
  induction conditions with
  | nil =>
    rw [List.map_nil, evalConditions_nil, evalConditions_nil, Connective.neutral_toggle, Except.map]
  | cons c rest ih =>
    -- so both lists stop at the same condition, or neither does
    have hiff := eval_invertedBy_eq_neutral_iff htest op c
    by_cases hneutral : c.eval test = .ok op.neutral
    · rw [List.map_cons, evalConditions_cons_of_neutral (hiff.2 hneutral),
        evalConditions_cons_of_neutral hneutral, ih]
    · rw [List.map_cons, evalConditions_cons_of_ne (mt hiff.1 hneutral),
        evalConditions_cons_of_ne hneutral, eval_invertedBy htest]

/-- A group and its dual have the same outcome. -/
theorem Dual.eval_eq (h : r.Dual invert r') : r.eval test = r'.eval test := by
  cases h with
  | @dual id op inverted conditions hne =>
    have hne' : conditions.map (invertedBy invert) ≠ [] := mt List.map_eq_nil_iff.1 hne
    rw [eval_group_of_ne_nil hne, eval_group_of_ne_nil hne', evalConditions_toggle htest]
    cases evalConditions test op conditions with
    | error e => rfl
    | ok b => simp [Except.map]

/-- De Morgan's law may be used at any node of a rule. -/
theorem Within.dual_eval_eq (h : Within (Dual invert) r r') : r.eval test = r'.eval test :=
  h.congr (compositional_eval test) fun _ _ hdual => hdual.eval_eq htest

end

/-! ## Rules as formulas -/

mutual

/-- The boolean formula of a rule, from the results of its filters. -/
def truth (v : α → Bool) : Rule α → Bool
  | leaf a => v a
  | group _ op invert conditions =>
    (conditions.isEmpty || op.joins (truths v conditions)) != invert

def truths (v : α → Bool) : List (Rule α) → List Bool
  | [] => []
  | r :: rest => truth v r :: truths v rest

end

/-- The groups have the same conditions, but for their order and for one that comes once more. -/
inductive Rearranges : Rule α → Rule α → Prop where
  | permuted {id : String} {op : Connective} {invert : Bool}
      {conditions conditions' : List (Rule α)} : conditions.Perm conditions' →
      Rearranges (.group id op invert conditions) (.group id op invert conditions')
  | repeated {id : String} {op : Connective} {invert : Bool} {conditions : List (Rule α)}
      {c : Rule α} : c ∈ conditions →
      Rearranges (.group id op invert conditions) (.group id op invert (c :: conditions))

/-- Any number of groups are rearranged, one after the other and at any depth. -/
def Rearranged : Rule α → Rule α → Prop := Relation.ReflTransGen (Within Rearranges)

section

variable {v : α → Bool} {test : α → Except ε Bool} {r r' : Rule α}

/-- The truths of several rules are those of each. -/
theorem truths_eq (v : α → Bool) (rs : List (Rule α)) : truths v rs = rs.map (truth v) := by
  induction rs with
  | nil => rfl
  | cons r rest ih => rw [truths, ih, List.map_cons]

/-- The truth of a group joins those of its conditions; an empty group is true before it is
inverted. -/
theorem truth_group (v : α → Bool) (id : String) (op : Connective) (invert : Bool)
    (conditions : List (Rule α)) : (group id op invert conditions).truth v =
      ((conditions.isEmpty || op.joins (conditions.map (truth v))) != invert) := by
  rw [truth, truths_eq]

/-- The order of conditions does not matter to the truth of a group, nor how often they occur. -/
theorem unordered_truth (v : α → Bool) : Unordered (truth v) := by
  intro id op invert conditions conditions' h
  have hempty : conditions.isEmpty = conditions'.isEmpty := by
    rw [← List.isEmpty_map (f := truth v), ← List.isEmpty_map (l := conditions') (f := truth v),
      Bool.eq_iff_iff]
    simp only [List.isEmpty_iff, List.eq_nil_iff_forall_not_mem, h]
  rw [truth_group, truth_group, Connective.joins_congr h, hempty]

/-- Conditions that have values give what joins those values, although the evaluation may stop
early. -/
theorem evalConditions_eq_ok_joins {op : Connective} {conditions : List (Rule α)}
    (h : ∀ c ∈ conditions, c.eval test = .ok (c.truth v)) :
    evalConditions test op conditions = .ok (op.joins (conditions.map (truth v))) := by
  induction conditions with
  | nil => rw [evalConditions_nil, List.map_nil, Connective.joins_nil]
  | cons c rest ih =>
    obtain ⟨hc, hrest⟩ := List.forall_mem_cons.1 h
    by_cases hneutral : c.truth v = op.neutral
    · rw [evalConditions_cons_of_neutral (hneutral ▸ hc), ih hrest, List.map_cons, hneutral,
        Connective.joins_cons_of_neutral]
    · have hne : c.eval test ≠ .ok op.neutral := by
        rw [hc]
        exact fun hok => hneutral (Except.ok.inj hok)
      rw [evalConditions_cons_of_ne hne, hc, List.map_cons, Connective.joins_cons_of_ne hneutral]

/-- Where no filter fails the result of a rule is its formula. -/
theorem eval_eq_ok_truth (h : ∀ a ∈ r.leaves, test a = .ok (v a)) :
    r.eval test = .ok (r.truth v) := by
  induction r with
  | leaf a => exact h a (mem_leaves_leaf.2 rfl)
  | group id op invert conditions ih =>
    have hconditions : ∀ c ∈ conditions, c.eval test = .ok (c.truth v) := fun c hc =>
      ih c hc fun a ha => h a (mem_leaves_group.2 ⟨c, hc, ha⟩)
    rw [truth_group]
    by_cases hnil : conditions = []
    · subst hnil
      rw [eval_group_nil, List.isEmpty_nil, Bool.true_or]
    · rw [eval_group_of_ne_nil hnil, evalConditions_eq_ok_joins hconditions,
        List.isEmpty_eq_false_iff.2 hnil, Bool.false_or, Except.map]

/-- A rearranged group has conditions with the same values. -/
theorem Rearranges.congr {F : Rule α → β} (hF : Unordered F) (h : r.Rearranges r') :
    F r = F r' := by
  cases h with
  | permuted hperm => exact hF _ _ _ _ _ fun b => (hperm.map F).mem_iff
  | @repeated id op invert conditions c hc =>
    apply hF
    intro b
    rw [List.map_cons, List.mem_cons]
    constructor
    · exact .inr
    · rintro (rfl | hb)
      · exact List.mem_map_of_mem hc
      · exact hb

/-- Whatever does not go by the order of conditions survives any number of rearrangements. -/
theorem Rearranged.congr {F : Rule α → β} (hF : Unordered F) (h : r.Rearranged r') :
    F r = F r' := by
  induction h with
  | refl => rfl
  | tail _ hstep ih =>
    exact ih.trans (hstep.congr hF.compositional fun _ _ hR => hR.congr hF)

/-- A rearranged rule is true of the same things. -/
theorem Rearranged.truth_eq (v : α → Bool) (h : r.Rearranged r') : r.truth v = r'.truth v :=
  h.congr (unordered_truth v)

/-- A rearranged rule has the same filters, perhaps more often. -/
theorem Rearranged.mem_leaves_iff (h : r.Rearranged r') {a : α} : a ∈ r.leaves ↔ a ∈ r'.leaves :=
  iff_of_eq (h.congr (unordered_mem_leaves a))

/-- A rule none of whose filters fails has the same result however it is rearranged. -/
theorem Rearranged.eval_eq (h : r.Rearranged r') (hv : ∀ a ∈ r.leaves, test a = .ok (v a)) :
    r'.eval test = .ok (r.truth v) := by
  rw [h.truth_eq v]
  exact eval_eq_ok_truth fun a ha => hv a (h.mem_leaves_iff.2 ha)

/-- Where a filter fails the order matters: the condition that decides may hide the failure. -/
example : let test : Bool → Except Unit Bool := fun b => if b then .ok true else .error ()
    (group "g" .or false [.leaf true, .leaf false]).eval test = .ok true ∧
      (group "g" .or false [.leaf false, .leaf true]).eval test = .error () :=
  ⟨rfl, rfl⟩

end

end Rule

end RecordRules
