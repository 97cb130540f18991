import RecordRules.Proofs.Rule.Nodes

/-!
# Replacing a node of a rule

The node with an id gives way to a list of trees that are made from it: to a changed node, or to
none if it is deleted (`Rule.modifyAt`, `Rule.removeAt`).

What replacement does to the entries of a tree is said by `entries_replace`: those outside the
node stay, except that the group around the node lists the new ids, and those of the node give
way to those of the new trees.
-/

namespace RecordRules.Rule

variable {α : Type} [Leaf α]

/-! ## Trees with a node replaced -/

mutual

/-- Replace nodes with this id below the root. -/
def replaceBelow (id : String) (f : Rule α → List (Rule α)) : Rule α → Rule α
  | leaf a => leaf a
  | group own op invert conditions => group own op invert (replaceAmong id f conditions)

def replaceAmong (id : String) (f : Rule α → List (Rule α)) : List (Rule α) → List (Rule α)
  | [] => []
  | r :: rest => (if r.id = id then f r else [replaceBelow id f r]) ++ replaceAmong id f rest

end

/-- The trees in place of a tree when the node with this id is replaced. -/
def replace (id : String) (f : Rule α → List (Rule α)) (r : Rule α) : List (Rule α) :=
  if r.id = id then f r else [r.replaceBelow id f]

/-- Change the node with this id. -/
def modifyAt (id : String) (f : Rule α → Rule α) (r : Rule α) : Rule α :=
  if r.id = id then f r else r.replaceBelow id fun n => [f n]

/-- Delete the node with this id, which is not the root, with everything below it. -/
def removeAt (id : String) (r : Rule α) : Rule α := r.replaceBelow id fun _ => []

/-- Replacing in several trees is replacing in each. -/
theorem replaceAmong_eq (id : String) (f : Rule α → List (Rule α)) (rs : List (Rule α)) :
    replaceAmong id f rs = rs.flatMap (replace id f) := by
  induction rs with
  | nil => rfl
  | cons r rest ih => rw [replaceAmong, ih, List.flatMap_cons, replace]

@[simp] theorem replaceBelow_leaf (id : String) (f : Rule α → List (Rule α)) (a : α) :
    (leaf a).replaceBelow id f = leaf a := by
  rw [replaceBelow]

@[simp] theorem replaceBelow_group (id : String) (f : Rule α → List (Rule α)) (own : String)
    (op : Connective) (invert : Bool) (conditions : List (Rule α)) :
    (group own op invert conditions).replaceBelow id f =
      group own op invert (conditions.flatMap (replace id f)) := by
  rw [replaceBelow, replaceAmong_eq]

@[simp] theorem conditions_replaceBelow (id : String) (f : Rule α → List (Rule α)) (r : Rule α) :
    (r.replaceBelow id f).conditions = r.conditions.flatMap (replace id f) := by
  cases r <;> simp

@[simp] theorem id_replaceBelow (id : String) (f : Rule α → List (Rule α)) (r : Rule α) :
    (r.replaceBelow id f).id = r.id := by
  cases r <;> simp

/-- Putting one tree in place of a node is modifying that node. -/
theorem replace_singleton (id : String) (f : Rule α → Rule α) (r : Rule α) :
    r.replace id (fun n => [f n]) = [r.modifyAt id f] := by
  unfold replace modifyAt
  split <;> rfl

/-- A tree with another id stays where it is and is searched further down. -/
theorem replace_of_ne {id : String} {r : Rule α} (h : r.id ≠ id) (f : Rule α → List (Rule α)) :
    r.replace id f = [r.replaceBelow id f] := if_neg h

/-- Trees without the id stay as they are. -/
theorem replace_eq_self {id : String} {r : Rule α} (h : id ∉ r.ids)
    (f : Rule α → List (Rule α)) : r.replace id f = [r] := by
  have hne : r.id ≠ id := fun heq => h (heq ▸ r.id_mem_ids)
  rw [replace_of_ne hne]
  induction r with
  | leaf a => rw [replaceBelow_leaf]
  | group own op invert conditions ih =>
    have hconditions : conditions.flatMap (replace id f) = conditions.flatMap fun c => [c] := by
      apply List.flatMap_congr
      intro c hc
      have hid : id ∉ c.ids := fun hin =>
        h (ids_subset_of_mem_conditions (r := group own op invert conditions) hc hin)
      have hc' : c.id ≠ id := fun heq => hid (heq ▸ c.id_mem_ids)
      rw [replace_of_ne hc', ih c hc hid hc']
    rw [replaceBelow_group, hconditions, List.flatMap_singleton']

/-- Trees without the id are left as they are. -/
theorem flatMap_replace_eq_self {id : String} {rs : List (Rule α)} (h : ∀ r ∈ rs, id ∉ r.ids)
    (f : Rule α → List (Rule α)) : rs.flatMap (replace id f) = rs := by
  rw [List.flatMap_congr fun r hr => replace_eq_self (h r hr) f, List.flatMap_singleton']

/-! ## Changes of a node -/

/-- Attach a tree as the last condition of a group. -/
def addCondition (c : Rule α) : Rule α → Rule α
  | leaf a => leaf a
  | group id op invert conditions => group id op invert (conditions ++ [c])

/-- Flip a group between `and` and `or`. -/
def toggleOp : Rule α → Rule α
  | leaf a => leaf a
  | group id op invert conditions => group id op.toggle invert conditions

/-- Invert the result of a node, or not. -/
def withInvert (invert : Bool) : Rule α → Rule α
  | leaf a => leaf (Leaf.setInvert invert a)
  | group id op _ conditions => group id op invert conditions

/-- Change a single filter. -/
def mapFilter (f : α → α) : Rule α → Rule α
  | leaf a => leaf (f a)
  | group id op invert conditions => group id op invert conditions

@[simp] theorem id_addCondition (c r : Rule α) : (addCondition c r).id = r.id := by
  cases r <;> rfl

omit [Leaf α] in
/-- A group gets its new condition behind the others. -/
theorem conditions_addCondition {r : Rule α} (h : r.isGroup = true) (c : Rule α) :
    (addCondition c r).conditions = r.conditions ++ [c] := by
  cases r with
  | leaf a => cases h
  | group id op invert conditions => rfl

/-- In the table of a group only the list of its conditions changes. -/
theorem entry_addCondition (parent : String) (c r : Rule α) :
    (addCondition c r).entry parent = (r.entry parent).mapConditions (· ++ [c.id]) := by
  cases r <;> simp [addCondition, entry, Entry.mapConditions]

@[simp] theorem id_toggleOp (r : Rule α) : r.toggleOp.id = r.id := by cases r <;> rfl

omit [Leaf α] in
@[simp] theorem conditions_toggleOp (r : Rule α) : r.toggleOp.conditions = r.conditions := by
  cases r <;> rfl

@[simp] theorem id_withInvert (invert : Bool) (r : Rule α) : (r.withInvert invert).id = r.id := by
  cases r <;> simp [withInvert]

@[simp] theorem conditions_withInvert (invert : Bool) (r : Rule α) :
    (r.withInvert invert).conditions = r.conditions := by
  cases r <;> rfl

/-! ## Entries -/

/-- An entry that lists other ids in place of one. -/
def relink (id : String) (new : List String) (x : String × Entry α) : String × Entry α :=
  (x.1, x.2.mapConditions (·.flatMap fun k => if k = id then new else [k]))

omit [Leaf α] in
/-- An entry that does not list the id is left as it is. -/
theorem relink_eq_self {id : String} {x : String × Entry α} (h : id ∉ x.2.conditions)
    (new : List String) : relink id new x = x := by
  obtain ⟨k, e⟩ := x
  cases e with
  | filter data parent => rfl
  | group own op invert conditions parent =>
    have hconditions : (conditions.flatMap fun k => if k = id then new else [k]) =
        conditions.flatMap fun k => [k] := by
      refine List.flatMap_congr fun k hk => if_neg ?_
      rintro rfl
      exact h hk
    simp [relink, Entry.mapConditions, hconditions]

omit [Leaf α] in
/-- Entries that do not list the id are left as they are. -/
theorem map_relink_eq_self {id : String} {es : List (String × Entry α)}
    (h : ∀ x ∈ es, id ∉ x.2.conditions) (new : List String) : es.map (relink id new) = es := by
  rw [List.map_congr_left fun x hx => relink_eq_self (h x hx) new, List.map_id']

omit [Leaf α] in
/-- Relinking changes what entries list and not the ids they stand under. -/
theorem map_fst_relink (id : String) (new : List String) (es : List (String × Entry α)) :
    (es.map (relink id new)).map (·.1) = es.map (·.1) := by
  rw [List.map_map]
  rfl

/-- Entries list only ids of the tree. -/
theorem mem_ids_of_mem_conditions_entry {parent k : String} {x : String × Entry α} {r : Rule α}
    (hx : x ∈ r.entries parent) (hk : k ∈ x.2.conditions) : k ∈ r.ids := by
  rcases mem_entries_iff.1 hx with rfl | ⟨m, hm, n, hn, rfl⟩
  · rw [conditions_entry] at hk
    obtain ⟨c, hc, rfl⟩ := List.mem_map.1 hk
    exact ids_subset_of_mem_conditions hc c.id_mem_ids
  · rw [conditions_entry] at hk
    obtain ⟨c, hc, rfl⟩ := List.mem_map.1 hk
    obtain ⟨d, hm⟩ := mem_nodes_iff.1 hm
    exact hm.ids_subset (ids_subset_of_mem_conditions hn
      (ids_subset_of_mem_conditions hc c.id_mem_ids))

/-- How the entries of `r` split at its node `n`, and what becomes of them when the node is
replaced: `es` are those outside the node, and `above` is the id under which it stands. -/
structure Splits (f : Rule α → List (Rule α)) (parent : String) (r n : Rule α) (d : Nat)
    (es : List (String × Entry α)) (above : String) : Prop where
  entries : (r.entries parent).Perm (es ++ n.entries above)
  replaced : ((r.replace n.id f).flatMap (Rule.entries parent)).Perm
    (es.map (relink n.id ((f n).map Rule.id)) ++ (f n).flatMap (Rule.entries above))
  /-- No other entry lists the node. -/
  listed : ∀ x ∈ es, n.id ∈ x.2.conditions → x.1 = above
  atRoot : d = 0 → es = [] ∧ above = parent
  inside : 0 < d → above ∈ es.map (·.1)

/-- A node at the root has no entries around it. -/
theorem splits_self (f : Rule α → List (Rule α)) (parent : String) (n : Rule α) :
    Splits f parent n n 0 [] parent where
  entries := .refl _
  replaced := by
    rw [replace, if_pos rfl]
    exact .refl _
  listed := by simp
  atRoot _ := ⟨rfl, rfl⟩
  inside h := absurd h (Nat.lt_irrefl 0)

/-- Among conditions, the ids of what replaces a node take the place of the id of the node. -/
theorem map_id_flatMap_replace {n : Rule α} {rs : List (Rule α)}
    (h : ∀ c ∈ rs, c.id = n.id → c = n) (f : Rule α → List (Rule α)) :
    (rs.flatMap (replace n.id f)).map Rule.id =
      (rs.map Rule.id).flatMap fun k => if k = n.id then (f n).map Rule.id else [k] := by
  rw [List.map_flatMap, List.flatMap_map]
  apply List.flatMap_congr
  intro c hc
  by_cases hid : c.id = n.id
  · obtain rfl := h c hc hid
    simp [replace]
  · simp [replace_of_ne hid, hid]

/-- The root around a replaced node lists the new ids. -/
theorem entry_replaceBelow {n r : Rule α} (h : ∀ c ∈ r.conditions, c.id = n.id → c = n)
    (f : Rule α → List (Rule α)) (parent : String) :
    (r.id, (r.replaceBelow n.id f).entry parent) =
      relink n.id ((f n).map Rule.id) (r.id, r.entry parent) := by
  have hids := map_id_flatMap_replace h f
  cases r with
  | leaf a => rfl
  | group own op invert conditions =>
    rw [conditions_group] at hids
    simp only [replaceBelow_group, entry, relink, Entry.mapConditions, hids]

/-- One step up: from a condition of a group to the group. -/
theorem Splits.under {f : Rule α → List (Rule α)} {above : String} {r n c : Rule α} {d : Nat}
    {es : List (String × Entry α)} (h : Splits f r.id c n d es above) (parent : String)
    (hr : r.ids.Nodup) (hc : c ∈ r.conditions) (hn : At n d c) :
    ∃ es', Splits f parent r n (d + 1) es' above := by
  obtain ⟨before, after, hconditions⟩ := List.append_of_mem hc
  have hperm : r.conditions.Perm (c :: (before ++ after)) := by
    rw [hconditions]
    exact List.perm_middle
  have hnc : n.id ∈ c.ids := hn.ids_subset n.id_mem_ids
  have hnodup := hr
  rw [ids_eq, List.nodup_cons, (hperm.flatMap_right _).nodup_iff, List.flatMap_cons,
    List.nodup_append] at hnodup
  -- the id stands neither at the root nor in the other conditions
  have hroot : r.id ≠ n.id := fun heq => id_notMem_ids_of_mem_conditions hr hc (heq ▸ hnc)
  have hothers : ∀ o ∈ before ++ after, n.id ∉ o.ids := fun o ho hin =>
    hnodup.2.2.2 n.id hnc n.id (List.mem_flatMap.2 ⟨o, ho, hin⟩) rfl
  have hunique : ∀ o ∈ r.conditions, o.id = n.id → o = n ∧ d = 0 := by
    intro o ho heq
    obtain ⟨hon, hd⟩ := At.unique hr (.under ho .root) (.under hc hn) heq
    exact ⟨hon, by omega⟩
  refine ⟨(r.id, r.entry parent) :: ((before ++ after).flatMap (Rule.entries r.id) ++ es),
    ?_, ?_, ?_, fun h => absurd h (by omega), fun _ => ?_⟩
  · rw [entries_eq, List.cons_append]
    refine .cons _ ((hperm.flatMap_right _).trans ?_)
    rw [List.flatMap_cons, List.append_assoc]
    exact List.perm_append_comm.trans (h.entries.append_left _)
  · -- entries of the other conditions list no child of the replaced node, so relinking passes them
    -- by
    have hsame : ((before ++ after).flatMap (Rule.entries r.id)).map
        (relink n.id ((f n).map Rule.id)) = (before ++ after).flatMap (Rule.entries r.id) := by
      refine map_relink_eq_self (fun x hx hin => ?_) _
      obtain ⟨o, ho, hx⟩ := List.mem_flatMap.1 hx
      exact hothers o ho (mem_ids_of_mem_conditions_entry hx hin)
    have hentry := entry_replaceBelow (fun o ho heq => (hunique o ho heq).1) f parent
    rw [replace_of_ne hroot, List.flatMap_singleton, entries_eq, id_replaceBelow, hentry,
      conditions_replaceBelow, List.map_cons, List.map_append, hsame, List.cons_append]
    refine .cons _ (((hperm.flatMap_right _).flatMap_right _).trans ?_)
    rw [List.flatMap_cons, List.flatMap_append, flatMap_replace_eq_self hothers,
      List.append_assoc]
    exact List.perm_append_comm.trans (h.replaced.append_left _)
  · intro x hx hin
    rw [List.mem_cons, List.mem_append, List.mem_flatMap] at hx
    rcases hx with rfl | ⟨o, ho, hx⟩ | hx
    · rw [conditions_entry] at hin
      obtain ⟨o, ho, heq⟩ := List.mem_map.1 hin
      exact (h.atRoot (hunique o ho heq).2).2.symm
    · exact absurd (mem_ids_of_mem_conditions_entry hx hin) (hothers o ho)
    · exact h.listed x hx hin
  · rcases Nat.eq_zero_or_pos d with hd | hd
    · rw [(h.atRoot hd).2]
      exact .head _
    · rw [List.map_cons, List.map_append]
      exact .tail _ (List.mem_append_right _ (h.inside hd))

/-- The entries of a tree split at each of its nodes. -/
theorem At.splits {n r : Rule α} {d : Nat} (h : At n d r) (hr : r.ids.Nodup)
    (f : Rule α → List (Rule α)) (parent : String) :
    ∃ es above, Splits f parent r n d es above := by
  induction h generalizing parent with
  | root => exact ⟨[], parent, splits_self f parent n⟩
  | @under d c r hc hn ih =>
    obtain ⟨es, above, h⟩ := ih (nodup_of_mem_conditions hr hc) r.id
    obtain ⟨es', h'⟩ := h.under parent hr hc hn
    exact ⟨es', above, h'⟩

end RecordRules.Rule
