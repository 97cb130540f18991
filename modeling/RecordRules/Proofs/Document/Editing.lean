import RecordRules.Proofs.Document.Decoding
import RecordRules.Proofs.RuleTable.Flattening

/-!
# Documents that can be edited

Two walks look for ids that occur twice.  The one over a rule that was read keeps the nodes to come
on a stack (`Rule.repeatedId?_eq_walk?`), the one that enters a rule into a table keeps them in a
queue.  They go in different orders and may tell different ids, but they refuse the same rules, so
what was read from a document can be entered into a table (`id_checks_agree`).
-/

namespace RecordRules

/-! ## A walk with a stack -/

namespace Rule

variable {α : Type} [Leaf α]

/-- The order from the right takes the last rule first. -/
theorem idsFromRightOf_eq (rs : List (Rule α)) :
    idsFromRightOf rs = rs.reverse.flatMap idsFromRight := by
  induction rs with
  | nil => rfl
  | cons r rest ih => simp [idsFromRightOf, ih]

/-- The order from the right puts the id of a rule before those of its conditions, of which the last
comes first. -/
theorem idsFromRight_eq (r : Rule α) :
    r.idsFromRight = r.id :: r.conditions.reverse.flatMap idsFromRight := by
  cases r <;> simp [idsFromRight, idsFromRightOf_eq]

/-- Walk over the trees of a stack up to a node whose id was met before.  The conditions of a node
come on top of the stack, the last one first. -/
def walk? (met : List String) : List (Rule α) → Option String
  | [] => none
  | r :: stack =>
    if r.id ∈ met then some r.id else walk? (r.id :: met) (r.conditions.reverse ++ stack)
termination_by stack => (stack.flatMap ids).length
decreasing_by
  have hreverse := ((List.reverse_perm r.conditions).flatMap_right ids).length_eq
  rw [List.flatMap_append, List.length_append, hreverse, List.flatMap_cons, List.length_append,
    ids_eq r, List.length_cons]
  omega

/-- The walk meets the ids of the stack from its top, each tree from the right. -/
theorem walk?_eq (met : List String) (stack : List (Rule α)) :
    walk? met stack = firstRepeated? met (stack.flatMap idsFromRight) := by
  fun_induction walk? met stack with
  | case1 => rfl
  | case2 met r stack hmet =>
    rw [List.flatMap_cons, idsFromRight_eq, List.cons_append, firstRepeated?, if_pos hmet]
  | case3 met r stack hmet ih =>
    rw [ih, List.flatMap_cons, idsFromRight_eq r, List.cons_append, firstRepeated?, if_neg hmet,
      List.flatMap_append]

/-- The check of a rule that was read is the walk with a stack. -/
theorem repeatedId?_eq_walk? (r : Rule α) : r.repeatedId? = walk? [] [r] := by
  rw [walk?_eq, repeatedId?, List.flatMap_singleton]

end Rule

/-! ## Agreement with the queue -/

open RuleTable

/-- The walk over a rule and the queue of its table refuse the same rules, those with an id that
occurs twice, and each of them tells such an id.  So a rule is read from a document only if it has a
table. -/
theorem id_checks_agree {α : Type} [Leaf α] (r : Rule α) :
    r.repeatedId? = Rule.walk? [] [r] ∧
    (r.repeatedId? = none ↔ ∃ t, ofTree r = .ok t) ∧
    ((∃ t, ofTree r = .ok t) ↔ r.ids.Nodup) ∧
    (∀ id, r.repeatedId? = some id → 2 ≤ r.ids.count id) ∧
    (∀ e, ofTree r = .error e → ∃ id, e = .duplicateId id ∧ 2 ≤ r.ids.count id) ∧
    (∀ j d, Document.readFilter j = .ok d ↔
      ∃ rule, Rule.ofJson j = .ok rule ∧ (∃ t, ofTree rule = .ok t) ∧ .filter rule = d) ∧
    ∀ j rule, Document.ofJson j = .ok (.filter rule) → ∃ t, ofTree rule = .ok t := by
  refine ⟨r.repeatedId?_eq_walk?, ?_, exists_ofTree_eq_ok_iff,
    fun _ => Rule.two_le_count_of_repeatedId?, fun _ => ofTreeUnder_eq_error, fun j d => ?_,
    fun j rule h => ?_⟩
  · rw [exists_ofTree_eq_ok_iff, Rule.repeatedId?_eq_none_iff]
  · simp only [Document.readFilter_eq_ok_iff, exists_ofTree_eq_ok_iff]
  · exact exists_ofTree_eq_ok_iff.2 (Document.storable_of_ofJson h).nodup

/-- Ids that collide between levels, a filter with the group beside it and a filter with the group
around it: the stack tells one and the queue the other.  The same shape with distinct ids is
read. -/
theorem id_checks_agree_crossed :
    let r : Rule Draft := .group "g" .and false
      [.leaf (.empty "h"), .group "h" .or false [.leaf (.empty "g")]]
    let j : Json := .obj [("kind", .str "filter"), ("rule", .obj [
      ("conditions", .arr [.obj [("id", .str "a"), ("type", .str "Filter")],
        .obj [("conditions", .arr [.obj [("id", .str "b"), ("type", .str "Filter")]]),
          ("id", .str "h"), ("op", .str "or"), ("type", .str "FilterGroup")]]),
      ("id", .str "g"), ("op", .str "and"), ("type", .str "FilterGroup")]), ("version", .int 1)]
    let s : Rule Draft := .group "g" .and false
      [.leaf (.empty "a"), .group "h" .or false [.leaf (.empty "b")]]
    (r.repeatedId? = some "g" ∧ 2 ≤ r.ids.count "g") ∧
      (ofTree r = .error (.duplicateId "h") ∧
        ∃ id, TableError.duplicateId "h" = .duplicateId id ∧ 2 ≤ r.ids.count id) ∧
      Document.ofJson j = .ok (.filter s) ∧ ∃ t, ofTree s = .ok t := by
  intro r j s
  obtain ⟨-, -, -, hstack, hqueue, -, hread⟩ := id_checks_agree r
  have hg : r.repeatedId? = some "g" := by decide
  have hh : ofTree r = .error (.duplicateId "h") := by
    simp only [r, ofTree, ofTreeUnder, enter, Rule.children, Rule.conditions_group,
      Rule.conditions_leaf, List.map_cons, List.map_nil, List.nil_append, List.cons_append]
    rfl
  have hs : Document.ofJson j = .ok (.filter s) := rfl
  exact ⟨⟨hg, hstack _ hg⟩, ⟨hh, hqueue _ hh⟩, hs, hread _ _ hs⟩

end RecordRules
