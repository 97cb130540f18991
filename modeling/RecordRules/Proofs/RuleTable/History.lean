import Mathlib.Data.List.Forall2
import RecordRules.Proofs.RuleTable.Edits
import RecordRules.Rule.Filter

/-!
# Editing a table like its tree

A `RuleEdit` can be applied to a tree, where it is legal or not, and to a table, where it succeeds
or fails.  On the table of a tree it succeeds exactly when it is legal on the tree, and then gives
the table of the edited tree (`onTable_of_legal`, `onTable_of_illegal`).  So the two go together
over any number of edits (`tableHistory_agrees`).
-/

namespace RecordRules

variable {α : Type}

/-- One edit of a rule. -/
inductive RuleEdit (α : Type) where
  | append (parent : String) (r : Rule α)
  | remove (id : String)
  | toggle (id : String)
  | setInvert (id : String) (invert : Bool)
  | update (id : String) (edit : α → α)

/-- What an edit tells besides the edited rule. -/
inductive EditAnswer where
  | done
  | toggled (op : Connective)
  | removed (count : Nat)
deriving DecidableEq

/-- The tree has a group with this id. -/
def Rule.HasGroup [Leaf α] (id : String) (r : Rule α) : Prop :=
  ∃ n ∈ r.nodes, n.id = id ∧ n.isGroup = true

instance [Leaf α] (id : String) (r : Rule α) : Decidable (r.HasGroup id) :=
  inferInstanceAs (Decidable (∃ n ∈ r.nodes, n.id = id ∧ n.isGroup = true))

/-- The tree has a filter with this id, which the change leaves alone or makes a new one. -/
def Rule.HasFilter [Leaf α] (id : String) (f : α → α) (r : Rule α) : Prop :=
  ∃ a ∈ r.leaves, Leaf.id a = id ∧ (Leaf.id (f a) = id ∨ Leaf.id (f a) ∉ r.ids)

instance [Leaf α] (id : String) (f : α → α) (r : Rule α) : Decidable (r.HasFilter id f) :=
  inferInstanceAs (Decidable (∃ a ∈ r.leaves, Leaf.id a = id ∧ (_ ∨ _)))

namespace RuleEdit

variable [Leaf α]

/-! ## On trees -/

def onTree : RuleEdit α → Rule α → Rule α
  | .append parent c, r => r.modifyAt parent (Rule.addCondition c)
  | .remove id, r => r.removeAt id
  | .toggle id, r => r.modifyAt id Rule.toggleOp
  | .setInvert id invert, r => r.modifyAt id (Rule.withInvert invert)
  | .update id f, r => r.modifyAt id (Rule.mapFilter f)

def Legal : RuleEdit α → Rule α → Prop
  | .append parent c, r => r.HasGroup parent ∧ c.ids.Nodup ∧ ∀ id ∈ c.ids, id ∉ r.ids
  | .remove id, r => id ∈ r.ids ∧ id ≠ r.id
  | .toggle id, r => r.HasGroup id
  | .setInvert id _, r => id ∈ r.ids
  | .update id f, r => r.HasFilter id f

instance (e : RuleEdit α) (r : Rule α) : Decidable (e.Legal r) :=
  match e with
  | .append parent c =>
    inferInstanceAs (Decidable (r.HasGroup parent ∧ c.ids.Nodup ∧ ∀ id ∈ c.ids, id ∉ r.ids))
  | .remove id => inferInstanceAs (Decidable (id ∈ r.ids ∧ id ≠ r.id))
  | .toggle id => inferInstanceAs (Decidable (r.HasGroup id))
  | .setInvert id _ => inferInstanceAs (Decidable (id ∈ r.ids))
  | .update id f => inferInstanceAs (Decidable (r.HasFilter id f))

/-- What a legal edit tells: the new connective, or how many nodes go. -/
def answer : RuleEdit α → Rule α → EditAnswer
  | .toggle id, r =>
    match r.node? id with
    | some (.group _ op _ _) => .toggled op.toggle
    | _ => .done
  | .remove id, r =>
    match r.node? id with
    | some n => .removed n.nodes.length
    | none => .done
  | _, _ => .done

/-- The answers to edits and the trees after them.  An illegal edit has no answer and leaves the
tree as it is. -/
def treeHistory (r : Rule α) : List (RuleEdit α) → List (Option EditAnswer × Rule α)
  | [] => []
  | e :: es =>
    if e.Legal r then (some (e.answer r), e.onTree r) :: treeHistory (e.onTree r) es
    else (none, r) :: treeHistory r es

/-! ## On tables -/

def onTable : RuleEdit α → Editing α EditAnswer
  | .append parent c => do
    RuleTable.append parent c
    return .done
  | .remove id => return .removed (← RuleTable.remove id)
  | .toggle id => return .toggled (← RuleTable.toggle id)
  | .setInvert id invert => do
    RuleTable.setInvert id invert
    return .done
  | .update id f => do
    RuleTable.update id f
    return .done

/-- The answers to edits and the tables after them.  An edit that fails has no answer, and the
next one finds the table as the failure leaves it. -/
def tableHistory (t : RuleTable α) : List (RuleEdit α) → List (Option EditAnswer × RuleTable α)
  | [] => []
  | e :: es =>
    match e.onTable t with
    | .ok answer t' => (some answer, t') :: tableHistory t' es
    | .error _ t' => (none, t') :: tableHistory t' es

/-! ## One edit -/

open Rule RuleTable

variable {t : RuleTable α} {r : Rule α}

/-- A legal edit succeeds on the table of a tree and gives the table of the edited tree. -/
theorem onTable_of_legal (h : t.Represents r) {e : RuleEdit α} (he : e.Legal r) :
    ∃ t', e.onTable t = .ok (e.answer r) t' ∧ t'.Represents (e.onTree r) := by
  cases e with
  | append parent c =>
    obtain ⟨⟨n, hn, rfl, hgroup⟩, hc, hnew⟩ := he
    obtain ⟨t', happend, ht'⟩ := h.append hn hgroup hc hnew
    exact ⟨t', by simp [onTable, happend, answer], ht'⟩
  | remove id =>
    obtain ⟨hid, hroot⟩ := he
    obtain ⟨n, hn, rfl⟩ := mem_ids_iff.1 hid
    obtain ⟨t', hremove, ht'⟩ := h.remove hn hroot
    exact ⟨t', by simp [onTable, hremove, answer, node?_eq_some h.nodup hn], ht'⟩
  | toggle id =>
    obtain ⟨n, hn, rfl, hgroup⟩ := he
    cases n with
    | leaf a => cases hgroup
    | group own op invert conditions =>
      obtain ⟨t', htoggle, ht'⟩ := h.toggle hn rfl
      have hnode := node?_eq_some h.nodup hn
      -- the lemmas are about the id of the node, which for a group is the id that it carries
      rw [id_group] at htoggle ht' hnode ⊢
      exact ⟨t', by simp [onTable, htoggle, answer, hnode], ht'⟩
  | setInvert id invert =>
    obtain ⟨n, hn, rfl⟩ := mem_ids_iff.1 he
    obtain ⟨t', hset, ht'⟩ := h.setInvert hn invert
    exact ⟨t', by simp [onTable, hset, answer], ht'⟩
  | update id f =>
    obtain ⟨a, ha, rfl, hnew⟩ := he
    obtain ⟨t', hupdate, ht'⟩ := h.update (mem_leaves_iff.1 ha) hnew
    exact ⟨t', by simp [onTable, hupdate, answer], ht'⟩

/-- A group in the table of a tree is one of the tree. -/
theorem hasGroup_of_get? (h : t.Represents r) {id : String} {e : Entry α}
    (hget : t.get? id = some e) (hgroup : e.isGroup = true) : r.HasGroup id := by
  obtain ⟨n, hn, hid, above, rfl⟩ := h.exists_node hget
  rw [isGroup_entry] at hgroup
  exact ⟨n, hn, hid, hgroup⟩

/-- A filter in the table of a tree is one of the tree, with the id under which it stands. -/
theorem mem_leaves_of_get? (h : t.Represents r) {id parent : String} {a : α}
    (hget : t.get? id = some (.filter a parent)) : a ∈ r.leaves ∧ Leaf.id a = id := by
  obtain ⟨n, hn, rfl, above, heq⟩ := h.exists_node hget
  cases n with
  | leaf b =>
    obtain rfl : a = b := (Entry.filter.inj heq).1
    exact ⟨mem_leaves_iff.2 hn, rfl⟩
  | group own op invert conditions => cases heq

/-- Only a tree with two equal ids or with an id in use cannot be attached to a group. -/
theorem append_eq_error (h : t.Represents r) {parent : String} {c : Rule α}
    (hillegal : ¬ Legal (.append parent c) r) :
    ∃ err, RuleTable.append parent c t = .error err t := by
  rw [append_apply]
  cases hget : t.get? parent with
  | none => exact ⟨_, rfl⟩
  | some e =>
    by_cases hgroup : e.isGroup = true
    · have hparent := hasGroup_of_get? h hget hgroup
      cases hbelow : ofTreeUnder c parent with
      | error err => exact ⟨err, by simp only [hgroup, if_true]⟩
      | ok below =>
        have hlists := ofTreeUnder_eq_ok_iff.1 hbelow
        have hc : c.ids.Nodup := by
          have hnodup := hlists.nodup
          rwa [map_fst_entries] at hnodup
        cases hfind : below.keys.find? t.contains with
        | some id => exact ⟨.duplicateId id, by simp only [hgroup, if_true, hfind]⟩
        | none =>
          refine absurd ⟨hparent, hc, fun id hid => ?_⟩ hillegal
          rw [List.find?_eq_none] at hfind
          rw [← h.contains_iff]
          refine hfind id ?_
          rw [KeyMap.mem_keys, hlists.contains_iff, map_fst_entries]
          exact hid
    · exact ⟨.notAGroup parent, by simp only [hgroup]; rfl⟩

/-- An illegal edit fails on the table of a tree. -/
theorem onTable_of_illegal (h : t.Represents r) {e : RuleEdit α} (he : ¬ e.Legal r) :
    ∃ err, e.onTable t = .error err t := by
  cases e with
  | append parent c =>
    obtain ⟨err, happend⟩ := append_eq_error h he
    exact ⟨err, by simp [onTable, happend]⟩
  | remove id =>
    by_cases hin : id ∈ r.ids
    · obtain rfl : id = r.id := by
        by_contra hne
        exact he ⟨hin, hne⟩
      exact ⟨.removeRoot r.id, by simp [onTable, remove_apply, h.get?_root]⟩
    · have hget := h.get?_eq_none hin
      exact ⟨.unknownId id, by simp [onTable, remove_apply, hget]⟩
  | toggle id =>
    rcases hget : t.get? id with _ | ⟨data, parent⟩ | ⟨own, op, invert, conditions, parent⟩
    · exact ⟨.unknownId id, by simp [onTable, toggle_apply, hget]⟩
    · exact ⟨.notAGroup id, by simp [onTable, toggle_apply, hget]⟩
    · exact absurd (hasGroup_of_get? h hget rfl) he
  | setInvert id invert =>
    have hget := h.get?_eq_none he
    exact ⟨.unknownId id, by simp [onTable, setInvert_apply, hget]⟩
  | update id f =>
    rcases hget : t.get? id with _ | ⟨a, parent⟩ | ⟨own, op, invert, conditions, parent⟩
    · exact ⟨.unknownId id, by simp [onTable, update_apply, hget]⟩
    · obtain ⟨ha, rfl⟩ := mem_leaves_of_get? h hget
      -- the filter is there, so the edit can only be illegal for a new id that is in use
      have hid : Leaf.id (f a) ≠ Leaf.id a := fun heq => he ⟨a, ha, rfl, .inl heq⟩
      have hused : Leaf.id (f a) ∈ r.ids := by
        by_contra hnew
        exact he ⟨a, ha, rfl, .inr hnew⟩
      have hin : (t.insert (Leaf.id a) (.filter (f a) parent)).contains (Leaf.id (f a)) = true := by
        rw [KeyMap.contains_iff, KeyMap.get?_insert, if_neg (Ne.symm hid), ← KeyMap.contains_iff,
          h.contains_iff]
        exact hused
      exact ⟨.duplicateId (Leaf.id (f a)), by simp [onTable, update_apply, hget, hid, hin]⟩
    · exact ⟨.notAGroup id, by simp [onTable, update_apply, hget]⟩

/-! ## Any number of edits -/

/-- The same answer, and the table of the tree. -/
def Agree (x : Option EditAnswer × RuleTable α) (y : Option EditAnswer × Rule α) : Prop :=
  x.1 = y.1 ∧ ofTree y.2 = .ok x.2

/-- Edit by edit, the table stays that of the tree.  By induction on the edits, where a legal one
goes by `onTable_of_legal` and an illegal one leaves both as they were. -/
theorem tableHistory_of_represents (h : t.Represents r) (es : List (RuleEdit α)) :
    List.Forall₂ Agree (tableHistory t es) (treeHistory r es) := by
  induction es generalizing t r with
  | nil => exact .nil
  | cons e es ih =>
    by_cases he : e.Legal r
    · obtain ⟨t', htable, ht'⟩ := onTable_of_legal h he
      simp only [tableHistory, treeHistory, htable, if_pos he]
      exact .cons ⟨rfl, ofTree_eq_ok_iff.2 ht'⟩ (ih ht')
    · obtain ⟨err, htable⟩ := onTable_of_illegal h he
      simp only [tableHistory, treeHistory, htable, if_neg he]
      exact .cons ⟨rfl, ofTree_eq_ok_iff.2 h⟩ (ih h)

/-- The table of a tree goes through any edits like the tree: each step succeeds exactly when it
is legal on the tree so far, with the same answer, and leaves the table of the tree after it. -/
theorem tableHistory_agrees (r : Rule α) (hr : r.ids.Nodup) (es : List (RuleEdit α)) :
    ∃ t, ofTree r = .ok t ∧ List.Forall₂ Agree (tableHistory t es) (treeHistory r es) := by
  obtain ⟨t, ht⟩ := exists_ofTreeUnder_eq_ok hr r.id
  exact ⟨t, ht, tableHistory_of_represents (ofTree_eq_ok_iff.1 ht) es⟩

/-- A filter goes to another id, once; then it is deleted. -/
theorem tableHistory_agrees_rename_remove : ∃ t,
    ofTree (group "g" .and false [leaf (Draft.empty "a")]) = .ok t ∧
      List.Forall₂ Agree
        (tableHistory t [.update "a" fun _ => .empty "b", .remove "a", .remove "b"])
        [(some .done, group "g" .and false [leaf (Draft.empty "b")]),
          (none, group "g" .and false [leaf (Draft.empty "b")]),
          (some (.removed 1), group "g" .and false [])] :=
  tableHistory_agrees (group "g" .and false [leaf (Draft.empty "a")]) (by decide)
    [.update "a" fun _ => .empty "b", .remove "a", .remove "b"]

end RuleEdit

end RecordRules
