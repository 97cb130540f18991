import RecordRules.Proofs.Rule.Replacement
import RecordRules.Proofs.RuleTable.Flattening
import RecordRules.RuleTable.Edit

/-!
# What an edit makes of the table of a tree

Each edit of the table of a tree gives the table of a tree that has one node replaced.  The
entries of a tree split at the node (`Rule.At.splits`), and an edit touches the entry of the node
and, where the node moves or goes, that of the group around it.
-/

namespace RecordRules.RuleTable

open Rule KeyMap

variable {α : Type} [Leaf α] {t : RuleTable α} {r n : Rule α} {d : Nat}

/-! ## Changing a node in its place -/

omit [Leaf α] in
/-- Replacing an id by itself changes nothing. -/
theorem map_relink_same (id : String) (es : List (String × Entry α)) :
    es.map (relink id [id]) = es := by
  have hkeep : ∀ ids : List String, (ids.flatMap fun k => if k = id then [id] else [k]) = ids := by
    intro ids
    rw [List.flatMap_congr (g := fun k => [k]), List.flatMap_singleton']
    intro k _
    split
    · next hk => rw [hk]
    · rfl
  refine (List.map_congr_left fun x _ => ?_).trans (List.map_id' es)
  obtain ⟨k, e⟩ := x
  cases e <;> simp [relink, Entry.mapConditions, hkeep]

/-- The entries before and after a change that keeps the id of the node. -/
theorem entries_modifyAt (hr : r.ids.Nodup) (hn : n ∈ r.nodes) {f : Rule α → Rule α}
    (hid : (f n).id = n.id) :
    ∃ es above, (r.entries r.id).Perm
        ((n.id, n.entry above) :: (es ++ n.conditions.flatMap (entries n.id))) ∧
      ((r.modifyAt n.id f).entries (r.modifyAt n.id f).id).Perm
        ((n.id, (f n).entry above) :: (es ++ (f n).conditions.flatMap (entries n.id))) := by
  obtain ⟨d, hn⟩ := mem_nodes_iff.1 hn
  obtain ⟨es, above, h⟩ := hn.splits hr (fun n => [f n]) r.id
  have hroot : (r.modifyAt n.id f).id = r.id := by
    unfold modifyAt
    split
    · next heq =>
      obtain rfl := (hn.unique hr .root heq.symm).1
      exact hid
    · exact id_replaceBelow _ _ _
  have hbefore := h.entries
  have hafter := h.replaced
  rw [entries_eq above] at hbefore
  rw [replace_singleton, List.flatMap_singleton, List.flatMap_singleton, List.map_singleton, hid,
    map_relink_same, entries_eq above, hid] at hafter
  refine ⟨es, above, hbefore.trans List.perm_middle, ?_⟩
  rw [hroot]
  exact hafter.trans List.perm_middle

/-- Changing the entry of a node changes the node, if its id and its conditions stay. -/
theorem Represents.insert_modifyAt (h : t.Represents r) (hn : n ∈ r.nodes) {f : Rule α → Rule α}
    (hid : (f n).id = n.id) (hconditions : (f n).conditions = n.conditions) :
    ∃ above, t.get? n.id = some (n.entry above) ∧
      Represents (t.insert n.id ((f n).entry above)) (r.modifyAt n.id f) := by
  obtain ⟨es, above, hbefore, hafter⟩ := entries_modifyAt h.nodup hn hid
  have hlists := Lists.perm h hbefore
  rw [hconditions] at hafter
  exact ⟨above, hlists.get?_head, (hlists.insert _).perm hafter.symm⟩

/-- Toggling a group of the table toggles it in the tree, and tells the new connective. -/
theorem Represents.toggle (h : t.Represents r) (hn : n ∈ r.nodes) {own : String} {op : Connective}
    {invert : Bool} {conditions : List (Rule α)} (heq : n = group own op invert conditions) :
    ∃ t', RuleTable.toggle n.id t = .ok op.toggle t' ∧
      t'.Represents (r.modifyAt n.id toggleOp) := by
  obtain ⟨above, hget, ht'⟩ := h.insert_modifyAt hn (id_toggleOp n) (conditions_toggleOp n)
  refine ⟨_, ?_, ht'⟩
  rw [toggle_apply, hget, heq]
  rfl

/-- Setting the inversion of a node in the table sets it in the tree. -/
theorem Represents.setInvert (h : t.Represents r) (hn : n ∈ r.nodes) (invert : Bool) :
    ∃ t', RuleTable.setInvert n.id invert t = .ok () t' ∧
      t'.Represents (r.modifyAt n.id (withInvert invert)) := by
  obtain ⟨above, hget, ht'⟩ :=
    h.insert_modifyAt hn (id_withInvert invert n) (conditions_withInvert invert n)
  refine ⟨_, ?_, ht'⟩
  rw [setInvert_apply, hget]
  cases n <;> rfl

/-! ## Attaching a tree -/

/-- A group that lists one more condition, and the entries of that condition. -/
theorem Represents.union_addCondition (h : t.Represents r) (hn : n ∈ r.nodes)
    (hgroup : n.isGroup = true) {c : Rule α} {below : RuleTable α}
    (hbelow : below.Lists (c.entries n.id)) (hnew : ∀ id ∈ c.ids, id ∉ r.ids) :
    Represents ((t.modify n.id (·.mapConditions (· ++ [c.id]))).union below)
      (r.modifyAt n.id (addCondition c)) := by
  obtain ⟨es, above, hbefore, hafter⟩ := entries_modifyAt h.nodup hn (id_addCondition c n)
  have hlists := Lists.perm h hbefore
  have hkeys := hbefore.map (·.1)
  rw [map_fst_entries] at hkeys
  rw [conditions_addCondition hgroup, List.flatMap_append, List.flatMap_singleton,
    entry_addCondition] at hafter
  rw [modify_eq_insert hlists.get?_head]
  refine Lists.perm ((hlists.insert _).union hbelow fun k hk hin => ?_) (.trans ?_ hafter.symm)
  · rw [map_fst_entries] at hk
    exact hnew k hk (hkeys.mem_iff.2 hin)
  · rw [List.cons_append, List.append_assoc]

/-- Attaching a tree to a group of the table attaches it in the tree, if its ids are distinct and
new. -/
theorem Represents.append (h : t.Represents r) (hn : n ∈ r.nodes) (hgroup : n.isGroup = true)
    {c : Rule α} (hc : c.ids.Nodup) (hnew : ∀ id ∈ c.ids, id ∉ r.ids) :
    ∃ t', RuleTable.append n.id c t = .ok () t' ∧
      t'.Represents (r.modifyAt n.id (addCondition c)) := by
  obtain ⟨above, hget⟩ := h.get?_node hn
  obtain ⟨below, hbelow⟩ := exists_ofTreeUnder_eq_ok hc n.id
  have hlists := ofTreeUnder_eq_ok_iff.1 hbelow
  have hfree : below.keys.find? t.contains = none := by
    rw [List.find?_eq_none]
    intro id hid
    rw [mem_keys, hlists.contains_iff, map_fst_entries] at hid
    rw [h.contains_iff]
    exact hnew id hid
  refine ⟨_, ?_, h.union_addCondition hn hgroup hlists hnew⟩
  simp only [append_apply, hget, isGroup_entry, hgroup, hbelow, hfree, if_true]

/-! ## Changing the group around a node -/

omit [Leaf α] in
/-- The only group that lists a node is the one around it. -/
theorem map_modify_eq_relink {id above : String} {new : List String} {es : List (String × Entry α)}
    (hlisted : ∀ x ∈ es, id ∈ x.2.conditions → x.1 = above) {g : List String → List String}
    (hg : ∀ ids, g ids = ids.flatMap fun k => if k = id then new else [k]) :
    es.map (fun x => (x.1, if x.1 = above then x.2.mapConditions g else x.2)) =
      es.map (relink id new) := by
  apply List.map_congr_left
  intro x hx
  by_cases habove : x.1 = above
  · rw [if_pos habove, relink, funext hg]
  · rw [if_neg habove, relink_eq_self fun hin => habove (hlisted x hx hin)]

omit [Leaf α] in
/-- A change at an id that is not listed changes nothing. -/
theorem map_modify_eq_self {above : String} {es : List (String × Entry α)}
    (h : above ∉ es.map (·.1)) (g : Entry α → Entry α) :
    es.map (fun x => (x.1, if x.1 = above then g x.2 else x.2)) = es := by
  refine (List.map_congr_left fun x hx => ?_).trans (List.map_id' es)
  have hne : x.1 ≠ above := by
    rintro rfl
    exact h (List.mem_map_of_mem hx)
  rw [if_neg hne]

/-- Renaming one id among conditions replaces it by the new one. -/
theorem map_ite_eq_flatMap (id new : String) (ids : List String) :
    (ids.map fun k => if k = id then new else k) =
      ids.flatMap fun k => if k = id then [new] else [k] := by
  rw [List.map_eq_flatMap]
  apply List.flatMap_congr
  intro k _
  split <;> rfl

/-- Striking an id from conditions replaces it by nothing. -/
theorem filter_ne_eq_flatMap (id : String) (ids : List String) :
    ids.filter (· ≠ id) = ids.flatMap fun k => if k = id then [] else [k] := by
  induction ids with
  | nil => rfl
  | cons k rest ih => by_cases hk : k = id <;> simp_all

/-- Below the root, `es` are the entries outside a node after the group around it has changed its
conditions.  They are also those of the tree in which other trees stand for the node. -/
theorem Represents.exists_relink (h : t.Represents r) (hn : n ∈ r.nodes) (hroot : n.id ≠ r.id)
    {f : Rule α → List (Rule α)} {g : List String → List String}
    (hg : ∀ ids, g ids = ids.flatMap fun k => if k = n.id then (f n).map Rule.id else [k]) :
    ∃ es above, above ≠ n.id ∧ t.get? n.id = some (n.entry above) ∧
      (∀ k ∈ es.map (·.1), k ∈ r.ids) ∧
      (t.modify above (·.mapConditions g)).Lists (n.entries above ++ es) ∧
      ((r.replaceBelow n.id f).entries r.id).Perm ((f n).flatMap (entries above) ++ es) := by
  obtain ⟨d, hn⟩ := mem_nodes_iff.1 hn
  obtain ⟨es, above, hs⟩ := hn.splits h.nodup f r.id
  have hd : 0 < d := by
    refine Nat.pos_of_ne_zero ?_
    rintro rfl
    cases hn
    exact hroot rfl
  have hlists : t.Lists (n.entries above ++ es) :=
    Lists.perm h (hs.entries.trans List.perm_append_comm)
  have hkeys := hs.entries.map (·.1)
  rw [map_fst_entries, List.map_append] at hkeys
  -- the group around the node is not below the node, so changing it leaves the entries there alone
  have hout : above ∉ (n.entries above).map (·.1) := by
    have hnodup := hkeys.nodup_iff.1 h.nodup
    exact fun hin => (List.nodup_append.1 hnodup).2.2 above (hs.inside hd) above hin rfl
  have hmodify := hlists.modify above (·.mapConditions g)
  rw [List.map_append, map_modify_eq_self hout, map_modify_eq_relink hs.listed hg] at hmodify
  have hafter := hs.replaced
  rw [replace_of_ne hroot.symm, List.flatMap_singleton] at hafter
  refine ⟨es.map (relink n.id ((f n).map Rule.id)), above, ?_, ?_, ?_, hmodify,
    hafter.trans List.perm_append_comm⟩
  · rintro rfl
    refine hout ?_
    rw [map_fst_entries]
    exact n.id_mem_ids
  · refine (hlists.get?_iff _ _).2 (List.mem_append_left _ ?_)
    rw [entries_eq]
    exact .head _
  · intro k hk
    rw [map_fst_relink] at hk
    exact hkeys.mem_iff.2 (List.mem_append_left _ hk)

/-! ## Moving a filter to another id -/

/-- A filter that is the whole tree stays its own parent. -/
theorem Represents.rename_leaf {a : α} (h : t.Represents (leaf a)) (f : α → α) :
    Represents (rename (t.insert (Leaf.id a) (.filter (f a) (Leaf.id a))) (Leaf.id a)
      (Leaf.id (f a)) (f a) (Leaf.id a)) (leaf (f a)) := by
  have hlists : t.Lists [(Leaf.id a, .filter a (Leaf.id a))] := by
    simpa [Represents, Rule.entries, entry] using h
  have hrest := hlists.erase.insert_new (k := Leaf.id (f a)) (by simp)
    (.filter (f a) (Leaf.id (f a)))
  simpa [rename, erase_insert, Represents, Rule.entries, entry] using hrest

/-- A filter other than the root is moved to its new id in the table as in the tree. -/
theorem Represents.rename_mapFilter (h : t.Represents r) {a : α} (hn : leaf a ∈ r.nodes)
    (hroot : Leaf.id a ≠ r.id) {f : α → α} (hnew : Leaf.id (f a) ∉ r.ids) :
    ∃ above, t.get? (Leaf.id a) = some (.filter a above) ∧
      Represents (rename (t.insert (Leaf.id a) (.filter (f a) above)) (Leaf.id a) (Leaf.id (f a))
        (f a) above) (r.modifyAt (Leaf.id a) (mapFilter f)) := by
  obtain ⟨es, above, habove, hget, hkeys, hlists, hafter⟩ := h.exists_relink hn hroot
    (f := fun n => [mapFilter f n])
    (g := (·.map fun c => if c = Leaf.id a then Leaf.id (f a) else c))
    (map_ite_eq_flatMap _ _)
  refine ⟨above, hget, ?_⟩
  have hinsert := hlists.erase.insert_new (fun hin => hnew (hkeys _ hin)) (.filter (f a) above)
  rw [id_leaf] at habove
  rw [rename, if_neg habove, erase_insert, modify_erase _ habove, Represents, Rule.modifyAt,
    if_neg hroot.symm, id_replaceBelow]
  exact hinsert.perm hafter.symm

/-- Changing a filter of the table changes it in the tree, be it in its place or at a new id. -/
theorem Represents.update (h : t.Represents r) {a : α} (hn : leaf a ∈ r.nodes) {f : α → α}
    (hnew : Leaf.id (f a) = Leaf.id a ∨ Leaf.id (f a) ∉ r.ids) :
    ∃ t', RuleTable.update (Leaf.id a) f t = .ok () t' ∧
      t'.Represents (r.modifyAt (Leaf.id a) (mapFilter f)) := by
  by_cases hid : Leaf.id (f a) = Leaf.id a
  · obtain ⟨above, hget, ht'⟩ := h.insert_modifyAt hn (f := mapFilter f) hid rfl
    refine ⟨_, ?_, ht'⟩
    rw [id_leaf] at hget
    simp [update_apply, hget, entry, mapFilter, hid]
  · have hfree := hnew.resolve_left hid
    have hrename : ∃ above, t.get? (Leaf.id a) = some (.filter a above) ∧
        Represents (rename (t.insert (Leaf.id a) (.filter (f a) above)) (Leaf.id a)
          (Leaf.id (f a)) (f a) above) (r.modifyAt (Leaf.id a) (mapFilter f)) := by
      by_cases hroot : Leaf.id a = r.id
      · obtain rfl : leaf a = r := eq_of_id_eq h.nodup hn (self_mem_nodes r) hroot
        have hmodify : modifyAt (Leaf.id a) (mapFilter f) (leaf a) = leaf (f a) := if_pos rfl
        exact ⟨Leaf.id a, h.get?_root, hmodify ▸ h.rename_leaf f⟩
      · exact h.rename_mapFilter hn hroot hfree
    obtain ⟨above, hget, ht'⟩ := hrename
    have hout : (t.insert (Leaf.id a) (.filter (f a) above)).contains (Leaf.id (f a)) = false := by
      rw [contains_eq_false_iff, get?_insert, if_neg (Ne.symm hid)]
      exact h.get?_eq_none hfree
    refine ⟨_, ?_, ht'⟩
    simp [update_apply, hget, hid, hout]

/-! ## Deleting a node -/

/-- Sweeping several trees takes out all of their entries, provided sweeping each of them does. -/
theorem exists_sweep_list {rs : List (Rule α)} {parent : String}
    {es : List (String × Entry α)} (h : t.Lists (rs.flatMap (entries parent) ++ es))
    (hrs : ∀ c ∈ rs, ∀ (t : RuleTable α) (es : List (String × Entry α)),
      t.Lists (c.entries parent ++ es) → ∃ t' : RuleTable α, t'.Lists es ∧
        ∀ removed rest, t.sweep removed (c.id :: rest) = t'.sweep (removed + c.nodes.length) rest) :
    ∃ t' : RuleTable α, t'.Lists es ∧ ∀ removed rest,
      t.sweep removed (rs.map Rule.id ++ rest) =
        t'.sweep (removed + (rs.flatMap nodes).length) rest := by
  induction rs generalizing t with
  | nil => exact ⟨t, h, fun removed rest => by simp⟩
  | cons c rest ih =>
    rw [List.flatMap_cons, List.append_assoc] at h
    obtain ⟨t₁, h₁, hsweep₁⟩ := hrs c (.head _) t _ h
    obtain ⟨t₂, h₂, hsweep₂⟩ := ih h₁ fun c hc => hrs c (.tail _ hc)
    refine ⟨t₂, h₂, fun removed pending => ?_⟩
    rw [List.map_cons, List.cons_append, hsweep₁, hsweep₂, List.flatMap_cons, List.length_append,
      Nat.add_assoc]

/-- Sweeping from the root of a tree takes its entries out, and nothing else. -/
theorem exists_sweep_tree (r : Rule α) {parent : String} {es : List (String × Entry α)}
    (h : t.Lists (r.entries parent ++ es)) :
    ∃ t' : RuleTable α, t'.Lists es ∧ ∀ removed rest,
      t.sweep removed (r.id :: rest) = t'.sweep (removed + r.nodes.length) rest := by
  induction r using induct_conditions generalizing t parent es with
  | step r ih =>
    rw [entries_eq, List.cons_append] at h
    -- the conditions are taken from the last one on
    have hperm : r.conditions.reverse.Perm r.conditions := List.reverse_perm _
    have hrest := h.erase.perm ((hperm.symm.flatMap_right (entries r.id)).append_right es)
    obtain ⟨t', ht', hsweep⟩ := exists_sweep_list hrest fun c hc t es hc' =>
      ih c (List.mem_reverse.1 hc) hc'
    refine ⟨t', ht', fun removed rest => ?_⟩
    rw [sweep_cons, h.get?_head]
    simp only [conditions_entry]
    rw [← List.map_reverse, hsweep, nodes_eq, List.length_cons,
      (hperm.flatMap_right nodes).length_eq]
    congr 1
    omega

/-- Deleting a node below the root tells how many nodes go. -/
theorem Represents.remove (h : t.Represents r) (hn : n ∈ r.nodes) (hroot : n.id ≠ r.id) :
    ∃ t', RuleTable.remove n.id t = .ok n.nodes.length t' ∧
      t'.Represents (r.removeAt n.id) := by
  obtain ⟨es, above, habove, hget, -, hlists, hafter⟩ := h.exists_relink hn hroot
    (f := fun _ => []) (g := (·.filter (· ≠ n.id))) (filter_ne_eq_flatMap _)
  obtain ⟨t', ht', hsweep⟩ := exists_sweep_tree n hlists
  refine ⟨t', ?_, ?_⟩
  · simp only [remove_apply, hget, parent_entry, if_neg habove, hsweep, sweep_nil, Nat.zero_add]
  · rw [Represents, Rule.removeAt, id_replaceBelow]
    exact ht'.perm hafter.symm

end RecordRules.RuleTable
