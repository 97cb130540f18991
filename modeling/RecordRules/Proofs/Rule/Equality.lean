import RecordRules.Proofs.Lists
import RecordRules.Rule.Basic

/-!
# Equal rules

Equal rules have the same shape and the same ids, and equal filters in the same places.
-/

namespace RecordRules.Rule

variable {α : Type} [BEq α] {r s : Rule α}

/-- Lists of rules are compared rule by rule. -/
theorem beqList_iff {as bs : List (Rule α)} :
    beqList as bs = true ↔ List.Forall₂ (fun a b => (a == b) = true) as bs := by
  induction as generalizing bs with
  | nil => cases bs <;> simp [beqList]
  | cons a as ih =>
    cases bs with
    | nil => simp [beqList]
    | cons b bs =>
      rw [beqList, Bool.and_eq_true, ih, List.forall₂_cons]
      rfl

/-- A leaf equals only leaves, of an equal filter. -/
theorem leaf_beq_iff {a : α} : (leaf a == s) = true ↔ ∃ b, s = leaf b ∧ (a == b) = true := by
  change beq (leaf a) s = true ↔ _
  cases s <;> simp [beq]

/-- A group equals only groups with its id, its connective, its flag and equal conditions. -/
theorem group_beq_iff {id : String} {op : Connective} {invert : Bool} {as : List (Rule α)} :
    (group id op invert as == s) = true ↔
      ∃ bs, s = group id op invert bs ∧ List.Forall₂ (fun a b => (a == b) = true) as bs := by
  change beq (group id op invert as) s = true ↔ _
  cases s with
  | leaf b => simp [beq]
  | group id' op' invert' bs =>
    rw [beq, Bool.and_eq_true, beqList_iff]
    simp only [Bool.and_eq_true, beq_iff_eq, group.injEq]
    grind

/-- Rules equal themselves when their filters do. -/
theorem beq_refl (h : ∀ a : α, (a == a) = true) (r : Rule α) : (r == r) = true := by
  induction r with
  | leaf a => exact leaf_beq_iff.2 ⟨a, rfl, h a⟩
  | group id op invert conditions ih =>
    exact group_beq_iff.2 ⟨conditions, rfl, List.forall₂_same.2 ih⟩

/-- A rule with an equal filter in the place of each of its own. -/
theorem map_beq_self {f : α → α} (h : ∀ a, (f a == a) = true) (r : Rule α) :
    (r.map f == r) = true := by
  induction r with
  | leaf a => exact leaf_beq_iff.2 ⟨a, rfl, h a⟩
  | group id op invert conditions ih =>
    rw [map, mapList_eq]
    exact group_beq_iff.2
      ⟨conditions, rfl, List.forall₂_map_left_iff.2 (List.forall₂_same.2 ih)⟩

/-- Equal rules have equal filters, one by one. -/
theorem forall₂_leaves_of_beq (h : (r == s) = true) :
    List.Forall₂ (fun a b => (a == b) = true) r.leaves s.leaves := by
  induction r generalizing s with
  | leaf a =>
    obtain ⟨b, rfl, hab⟩ := leaf_beq_iff.1 h
    exact .cons hab .nil
  | group id op invert conditions ih =>
    obtain ⟨bs, rfl, hbs⟩ := group_beq_iff.1 h
    have hleaves : List.Forall₂ (fun c s => List.Forall₂ (fun a b => (a == b) = true)
        c.leaves s.leaves) conditions bs := forall₂_imp_of_mem hbs fun c hc s hs => ih c hc hs
    rw [leaves, leaves, leavesOf_eq, leavesOf_eq]
    exact List.rel_flatMap hleaves fun _ _ h => h

/-- Equal rules have the same ids, provided equal filters do. -/
theorem ids_eq_of_beq [Leaf α] (hid : ∀ a b : α, (a == b) = true → Leaf.id a = Leaf.id b)
    (h : (r == s) = true) : r.ids = s.ids := by
  induction r generalizing s with
  | leaf a =>
    obtain ⟨b, rfl, hab⟩ := leaf_beq_iff.1 h
    rw [ids_leaf, ids_leaf, hid a b hab]
  | group id op invert conditions ih =>
    obtain ⟨bs, rfl, hbs⟩ := group_beq_iff.1 h
    rw [ids_group, ids_group, List.flatMap_def, List.flatMap_def,
      map_eq_map_of_forall₂ hbs fun c hc s hs => ih c hc hs]

end RecordRules.Rule
