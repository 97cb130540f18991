import Mathlib.Logic.Relation
import RecordRules.Proofs.KeyMap.Listing
import RecordRules.Proofs.Outcome
import RecordRules.Proofs.Rule.Nodes
import RecordRules.Rule.Filter

/-!
# Rebuilding a tree from any table

The conditions of a table that comes from elsewhere may lead nowhere, to a node that another group
lists as well, or round a cycle.  A `Walk` goes through them in pre-order and stops at the first id
that is not there or that it has met before (`Walk.Stuck`).  No walk meets more ids than there are
nodes (`Walk.length_met_le`), so every walk comes to an end, and it has only one
(`Walk.Gives.unique`).

`RuleTable.build` takes the steps of the walk (`steps_of_build`) and fails where the walk stops
(`stuck_of_build`).  Its fuel does not run out, since on every level it has met one more id.
-/

namespace RecordRules

variable {α : Type}

namespace Entry

/-- The id that a node has of itself, whatever id it is stored under. -/
def id [Leaf α] : Entry α → String
  | filter data _ => Leaf.id data
  | group id .. => id

end Entry

namespace RuleTable

/-- Every node is stored under its own id. -/
def OwnIds [Leaf α] (t : RuleTable α) : Prop := ∀ k e, t.get? k = some e → e.id = k

/-- The tree shows the nodes of the table from an id downwards, the conditions of each group in the
order in which the group lists them. -/
inductive Mirrors (t : RuleTable α) : String → Rule α → Prop where
  | leaf {k parent : String} {data : α} :
      t.get? k = some (.filter data parent) → Mirrors t k (.leaf data)
  | group {k id parent : String} {op : Connective} {invert : Bool} {conditions : List String}
      {rs : List (Rule α)} :
      t.get? k = some (.group id op invert conditions parent) →
      List.Forall₂ (Mirrors t) conditions rs → Mirrors t k (.group id op invert rs)

namespace Mirrors

variable {t : RuleTable α} {id : String} {r s : Rule α}

/-- A table shows at most one tree from an id downwards, since each entry tells the node and its
conditions. -/
theorem unique (hr : t.Mirrors id r) (hs : t.Mirrors id s) : r = s := by
  induction r generalizing id s with
  | leaf a =>
    cases hr with
    | leaf hget =>
      cases hs with
      | leaf hget' =>
        cases hget.symm.trans hget'
        rfl
      | group hget' => cases hget.symm.trans hget'
  | group own op invert rs ih =>
    cases hr with
    | group hget hrs =>
      cases hs with
      | leaf hget' => cases hget.symm.trans hget'
      | group hget' hss =>
        cases hget.symm.trans hget'
        have hsame := forall₂_imp_of_mem (forall₂_comp hrs.flip hss)
          fun r hr s ⟨_, h, h'⟩ => ih r hr h h'
        rw [List.forall₂_eq_eq_eq] at hsame
        rw [hsame]

/-- The conditions of a mirrored tree mirror those that the entry lists. -/
theorem conditions {e : Entry α} (h : t.Mirrors id r) (hget : t.get? id = some e) :
    List.Forall₂ t.Mirrors e.conditions r.conditions := by
  cases h with
  | leaf hget' =>
    cases hget.symm.trans hget'
    exact .nil
  | group hget' hrs =>
    cases hget.symm.trans hget'
    exact hrs

/-- With every node under its own id, the tree mirrored from an id has that id. -/
theorem id_eq [Leaf α] (ht : t.OwnIds) (h : t.Mirrors id r) : r.id = id := by
  cases h with
  | leaf hget => exact ht _ _ hget
  | group hget => exact ht _ _ hget

end Mirrors

end RuleTable

/-- A walk through a table: the ids met so far, the last one first, and those ahead, the next one
first. -/
structure Walk where
  met : List String
  ahead : List String

namespace Walk

/-- A walk about to begin. -/
def start (id : String) : Walk := ⟨[], [id]⟩

/-- The next id is met for the first time.  Its conditions come before everything else ahead. -/
inductive Step (t : RuleTable α) : Walk → Walk → Prop where
  | meet {met ahead : List String} {id : String} {e : Entry α} :
      id ∉ met → t.get? id = some e →
      Step t ⟨met, id :: ahead⟩ ⟨id :: met, e.conditions ++ ahead⟩

/-- Any number of steps. -/
abbrev Steps (t : RuleTable α) : Walk → Walk → Prop := Relation.ReflTransGen (Walk.Step t)

/-- The next id is not in the table, or it has been met before. -/
inductive Stuck (t : RuleTable α) : Walk → TableError → Prop where
  | dangling {met ahead : List String} {id : String} :
      t.get? id = none → Stuck t ⟨met, id :: ahead⟩ (.danglingId id)
  | cycle {met ahead : List String} {id : String} :
      id ∈ met → Stuck t ⟨met, id :: ahead⟩ (.cycle id)

/-- What a walk from an id comes to: the tree that mirrors it, or the first id where it stops. -/
inductive Gives (t : RuleTable α) (id : String) : Except TableError (Rule α) → Prop where
  | tree {met : List String} {r : Rule α} :
      Steps t (start id) ⟨met, []⟩ → t.Mirrors id r → Gives t id (.ok r)
  | error {w : Walk} {err : TableError} :
      Steps t (start id) w → Stuck t w err → Gives t id (.error err)

variable {t : RuleTable α} {v w : Walk} {met ahead : List String} {id : String} {r : Rule α}

/-! ## What a walk has met -/

/-- The ids are distinct, and all of them are in the table. -/
def Known (t : RuleTable α) (met : List String) : Prop :=
  met.Nodup ∧ ∀ id ∈ met, t.contains id = true

theorem known_nil : Known t [] := ⟨.nil, by simp⟩

/-- Meeting one more node of the table, for the first time, keeps to what is known. -/
theorem Known.cons {e : Entry α} (h : Known t met) (hid : id ∉ met) (hget : t.get? id = some e) :
    Known t (id :: met) :=
  ⟨List.nodup_cons.2 ⟨hid, h.1⟩, List.forall_mem_cons.2 ⟨KeyMap.contains_iff.2 ⟨e, hget⟩, h.2⟩⟩

/-- Distinct ids of a table are no more than its nodes. -/
theorem Known.length_le (h : Known t met) : met.length ≤ t.size := KeyMap.length_le_size h.1 h.2

/-- A step meets an id of the table for the first time. -/
theorem Step.known (h : Walk.Step t v w) (hv : Known t v.met) : Known t w.met := by
  cases h with
  | meet hid hget => exact hv.cons hid hget

/-- A walk meets every id of the table once at most. -/
theorem Steps.known (h : Steps t v w) (hv : Known t v.met) : Known t w.met := by
  induction h with
  | refl => exact hv
  | tail _ hstep ih => exact hstep.known ih

/-- A walk forgets nothing that it has met. -/
theorem Steps.length_le (h : Steps t v w) : v.met.length ≤ w.met.length := by
  induction h with
  | refl => exact Nat.le_refl _
  | tail _ hstep ih =>
    cases hstep with
    | meet => exact Nat.le_trans ih (Nat.le_succ _)

/-- No walk meets more ids than the table has nodes, so every walk comes to an end. -/
theorem length_met_le (h : Steps t (start id) w) : w.met.length ≤ t.size :=
  (h.known known_nil).length_le

/-! ## Where a walk ends -/

/-- There is one way on at most. -/
theorem rightUnique_step : Relator.RightUnique (Walk.Step t) := by
  rintro u v w ⟨hid, hget⟩ hstep
  cases hstep with
  | meet _ hget' =>
    obtain rfl := Option.some.inj (hget.symm.trans hget')
    rfl

/-- A walk with nothing ahead has come to its end. -/
theorem not_step_nil : ¬ Walk.Step t ⟨met, []⟩ w := nofun

/-- A walk that is stuck does not go on. -/
theorem Stuck.not_step {err : TableError} (h : Stuck t v err) : ¬ Walk.Step t v w := by
  rintro ⟨hid, hget⟩
  cases h with
  | dangling hnone => cases hnone.symm.trans hget
  | cycle hmet => exact hid hmet

/-- The places where a walk cannot go on are one place. -/
theorem Steps.unique {u : Walk} (hv : Steps t u v) (hw : Steps t u w)
    (hv' : ∀ x, ¬ Walk.Step t v x) (hw' : ∀ x, ¬ Walk.Step t w x) : v = w := by
  rcases Relation.ReflTransGen.total_of_right_unique rightUnique_step hv hw with h | h
  · exact ((Relation.reflTransGen_iff_eq hv').1 h).symm
  · exact (Relation.reflTransGen_iff_eq hw').1 h

/-- An id that is not in the table has not been met. -/
theorem Stuck.unique {err err' : TableError} (h : Stuck t w err) (h' : Stuck t w err')
    (hw : Known t w.met) : err = err' := by
  have hmet : ∀ {id : String}, t.get? id = none → id ∉ w.met := by
    intro id hnone hid
    have hin := hw.2 id hid
    rw [KeyMap.contains_eq_false_iff.2 hnone] at hin
    cases hin
  cases h with
  | dangling hnone =>
    cases h' with
    | dangling => rfl
    | cycle hid => exact absurd hid (hmet hnone)
  | cycle hid =>
    cases h' with
    | dangling hnone => exact absurd hid (hmet hnone)
    | cycle => rfl

/-- A walk from an id comes to one result only. -/
theorem Gives.unique {x y : Except TableError (Rule α)} (hx : Gives t id x) (hy : Gives t id y) :
    x = y := by
  cases hx with
  | tree hsteps hr =>
    cases hy with
    | tree _ hs => rw [hr.unique hs]
    | error hsteps' hstuck =>
      cases hsteps.unique hsteps' (fun _ => not_step_nil) fun _ => hstuck.not_step
      cases hstuck
  | error hsteps hstuck =>
    cases hy with
    | tree hsteps' _ =>
      cases hsteps.unique hsteps' (fun _ => hstuck.not_step) fun _ => not_step_nil
      cases hstuck
    | error hsteps' hstuck' =>
      obtain rfl := hsteps.unique hsteps' (fun _ => hstuck.not_step) fun _ => hstuck'.not_step
      rw [hstuck.unique hstuck' (hsteps.known known_nil)]

/-! ## The nodes of the tree -/

/-- What has been met and what is ahead make up the tree, each group before its conditions. -/
def Shows (t : RuleTable α) (r : Rule α) (w : Walk) : Prop :=
  ∃ ns rs, r.nodes = ns ++ rs.flatMap Rule.nodes ∧ List.Forall₂ t.Mirrors w.met.reverse ns ∧
    List.Forall₂ t.Mirrors w.ahead rs

/-- A step moves the next node from what is ahead to what has been met, with its conditions left
ahead. -/
theorem Shows.step (hv : Shows t r v) (h : Walk.Step t v w) : Shows t r w := by
  obtain ⟨ns, rs, hr, hns, hrs⟩ := hv
  cases h with
  | meet hid hget =>
    cases hrs with
    | @cons _ n _ rs hn hrs =>
      refine ⟨ns ++ [n], n.conditions ++ rs, ?_, ?_, List.rel_append (hn.conditions hget) hrs⟩
      · rw [hr, List.flatMap_cons, Rule.nodes_eq n, List.flatMap_append, List.append_assoc,
          List.cons_append, List.singleton_append]
      · rw [List.reverse_cons]
        exact List.rel_append hns (.cons hn .nil)

/-- Along a whole walk, what has been met and what is ahead go on making up the tree. -/
theorem Shows.steps (hv : Shows t r v) (h : Steps t v w) : Shows t r w := by
  induction h with
  | refl => exact hv
  | tail _ hstep ih => exact ih.step hstep

/-- A walk that is over has met the nodes of the tree in order. -/
theorem forall₂_mirrors_nodes (hr : t.Mirrors id r) (h : Steps t (start id) ⟨met, []⟩) :
    List.Forall₂ t.Mirrors met.reverse r.nodes := by
  have hstart : Shows t r (start id) := ⟨[], [r], by simp, .nil, .cons hr .nil⟩
  obtain ⟨ns, rs, hnodes, hns, hrs⟩ := hstart.steps h
  cases hrs
  rwa [hnodes, List.flatMap_nil, List.append_nil]

/-- A walk to the end has met the nodes of the tree, each once, so their ids are distinct. -/
theorem nodup_ids [Leaf α] (ht : t.OwnIds) (hr : t.Mirrors id r)
    (h : Steps t (start id) ⟨met, []⟩) : r.ids.Nodup := by
  have hids : met.reverse.map (fun k => k) = r.nodes.map Rule.id :=
    map_eq_map_of_forall₂ (forall₂_mirrors_nodes hr h) fun _ _ _ hn => (hn.id_eq ht).symm
  rw [List.map_id', Rule.map_id_nodes] at hids
  rw [← hids]
  exact List.nodup_reverse.2 (h.known known_nil).1

end Walk

namespace RuleTable

open Walk

variable {t : RuleTable α} {met met' : List String} {id : String} {r : Rule α}

/-! ## Building -/

/-- Building conditions walks through them, provided building each of them does. -/
theorem steps_of_buildList
    {build : List String → String → Except TableError (Rule α × List String)}
    {ids : List String} {rs : List (Rule α)}
    (hbuild : ∀ met id r met', build met id = .ok (r, met') →
      t.Mirrors id r ∧ ∀ ahead, Steps t ⟨met, id :: ahead⟩ ⟨met', ahead⟩)
    (h : buildList build met ids = .ok (rs, met')) :
    List.Forall₂ t.Mirrors ids rs ∧ ∀ ahead, Steps t ⟨met, ids ++ ahead⟩ ⟨met', ahead⟩ := by
  induction ids generalizing met rs with
  | nil =>
    cases h
    exact ⟨.nil, fun _ => .refl⟩
  | cons id rest ih =>
    rw [buildList, bind_eq_ok_iff] at h
    obtain ⟨⟨r, met₁⟩, hr, h⟩ := h
    obtain ⟨⟨rs', met₂⟩, hrs, h⟩ := bind_eq_ok_iff.1 h
    cases h
    obtain ⟨hmirrors, hsteps⟩ := hbuild _ _ _ _ hr
    obtain ⟨hrest, hsteps'⟩ := ih hrs
    exact ⟨.cons hmirrors hrest, fun ahead => (hsteps _).trans (hsteps' ahead)⟩

/-- Whatever else is ahead, building a node takes the steps of a walk through all below it. -/
theorem steps_of_build {fuel : Nat} (h : t.build fuel met id = .ok (r, met')) :
    t.Mirrors id r ∧ ∀ ahead, Steps t ⟨met, id :: ahead⟩ ⟨met', ahead⟩ := by
  induction fuel generalizing met id r met' with
  | zero =>
    rw [build] at h
    split at h <;> cases h
  | succ fuel ih =>
    rw [build] at h
    split at h
    · cases h
    next hid =>
    split at h
    · cases h
    · next data parent hget =>
      cases h
      exact ⟨.leaf hget, fun ahead => .single (.meet hid hget)⟩
    · next own op invert conditions parent hget =>
      obtain ⟨⟨rs, met₁⟩, hrs, h⟩ := bind_eq_ok_iff.1 h
      cases h
      obtain ⟨hmirrors, hsteps⟩ := steps_of_buildList (fun _ _ _ _ => ih) hrs
      exact ⟨.group hget hmirrors, fun ahead => .head (.meet hid hget) (hsteps ahead)⟩

/-- Building conditions fails where the walk through them is stuck, provided building each of them
does. -/
theorem stuck_of_buildList {fuel : Nat} {ids : List String} {err : TableError}
    (herror : ∀ met id, Known t met → t.size < fuel + met.length →
      t.build fuel met id = .error err →
      ∀ ahead, ∃ w, Steps t ⟨met, id :: ahead⟩ w ∧ Stuck t w err)
    (hmet : Known t met) (hfuel : t.size < fuel + met.length)
    (h : buildList (t.build fuel) met ids = .error err) (ahead : List String) :
    ∃ w, Steps t ⟨met, ids ++ ahead⟩ w ∧ Stuck t w err := by
  induction ids generalizing met with
  | nil => cases h
  | cons id rest ih =>
    rw [buildList, bind_eq_error_iff] at h
    rcases h with h | ⟨⟨r, met₁⟩, hr, h⟩
    · exact herror _ _ hmet hfuel h _
    rcases bind_eq_error_iff.1 h with h | ⟨_, _, h⟩
    · have hsteps := (steps_of_build hr).2 (rest ++ ahead)
      have hfuel' : t.size < fuel + met₁.length :=
        Nat.lt_of_lt_of_le hfuel (Nat.add_le_add_left hsteps.length_le fuel)
      obtain ⟨w, hw, hstuck⟩ := ih (hsteps.known hmet) hfuel' h
      exact ⟨w, hsteps.trans hw, hstuck⟩
    · cases h

/-- Building fails where a walk stops, if there is fuel for more levels than there are nodes that
have not been met. -/
theorem stuck_of_build {fuel : Nat} {err : TableError} (hmet : Known t met)
    (hfuel : t.size < fuel + met.length) (h : t.build fuel met id = .error err)
    (ahead : List String) : ∃ w, Steps t ⟨met, id :: ahead⟩ w ∧ Stuck t w err := by
  induction fuel generalizing met id ahead with
  | zero =>
    have hle := hmet.length_le
    omega
  | succ fuel ih =>
    rw [build] at h
    split at h
    · next hid =>
      cases h
      exact ⟨_, .refl, .cycle hid⟩
    next hid =>
    split at h
    · next hget =>
      cases h
      exact ⟨_, .refl, .dangling hget⟩
    · cases h
    · next own op invert conditions parent hget =>
      rcases bind_eq_error_iff.1 h with h | ⟨_, _, h⟩
      · -- one more id has been met, and one level of fuel is gone
        have hfuel' : t.size < fuel + (id :: met).length := by
          rw [List.length_cons]
          omega
        obtain ⟨w, hw, hstuck⟩ := stuck_of_buildList (fun _ _ hmet hfuel h => ih hmet hfuel h)
          (hmet.cons hid hget) hfuel' h ahead
        exact ⟨w, .head (.meet hid hget) hw, hstuck⟩
      · cases h

/-- With fuel for every node of the table, building comes to what the walk comes to. -/
theorem gives_build {fuel : Nat} (hfuel : t.size < fuel) :
    Gives t id ((t.build fuel [] id).map Prod.fst) := by
  cases h : t.build fuel [] id with
  | error err =>
    obtain ⟨w, hw, hstuck⟩ := stuck_of_build known_nil hfuel h []
    exact .error hw hstuck
  | ok x =>
    obtain ⟨hmirrors, hsteps⟩ := steps_of_build h
    exact .tree (hsteps []) hmirrors

/-- The fuel that is given is one more than the table has nodes. -/
theorem treeAt_eq_map_build (h : t.contains id = true) :
    t.treeAt id = (t.build (t.size + 1) [] id).map Prod.fst := by
  obtain ⟨e, hget⟩ := KeyMap.contains_iff.1 h
  rw [treeAt, node, hget]
  cases t.build (t.size + 1) [] id <;> rfl

/-- Building below a node comes to an end in every table, after no more levels than there are nodes,
with what a walk in pre-order gives.  A tree shows the nodes that the walk has met, in the same
order.  So where nodes are stored under their own ids, it has distinct ids. -/
theorem treeAt_walks [Leaf α] (h : t.contains id = true) :
    (∀ w, Steps t (start id) w → w.met.length ≤ t.size) ∧
    (∀ fuel, t.size < fuel → (t.build fuel [] id).map Prod.fst = t.treeAt id) ∧
    (∀ x, t.treeAt id = x ↔ Gives t id x) ∧
    (∀ r, t.treeAt id = .ok r → ∃ met, Steps t (start id) ⟨met, []⟩ ∧
      List.Forall₂ t.Mirrors met.reverse r.nodes) ∧
    (t.OwnIds → ∀ r, t.treeAt id = .ok r → r.ids.Nodup) := by
  have hgives : Gives t id (t.treeAt id) := by
    rw [treeAt_eq_map_build h]
    exact gives_build (Nat.lt_succ_self _)
  -- a tree can only come from a walk that ran through
  have htree : ∀ r, t.treeAt id = .ok r →
      ∃ met, Steps t (start id) ⟨met, []⟩ ∧ t.Mirrors id r := by
    intro r hr
    rw [hr] at hgives
    cases hgives with
    | tree hsteps hmirrors => exact ⟨_, hsteps, hmirrors⟩
  refine ⟨fun w => length_met_le, fun fuel hfuel => (gives_build hfuel).unique hgives, fun x => ?_,
    fun r hr => ?_, fun ht r hr => ?_⟩
  · constructor
    · rintro rfl
      exact hgives
    · exact hgives.unique
  · obtain ⟨met, hsteps, hmirrors⟩ := htree r hr
    exact ⟨met, hsteps, forall₂_mirrors_nodes hmirrors hsteps⟩
  · obtain ⟨met, hsteps, hmirrors⟩ := htree r hr
    exact nodup_ids ht hmirrors hsteps

/-- Two groups list one filter.  The walk from the outer group comes to it twice, the one from the
inner group once. -/
theorem treeAt_walks_shared :
    let t : RuleTable Draft := .ofList [("g", .group "g" .and false ["a", "b"] "g"),
      ("a", .group "a" .or false ["b"] "g"), ("b", .filter (.empty "b") "a")]
    let r : Rule Draft := .group "a" .or false [.leaf (.empty "b")]
    t.contains "g" = true ∧ t.treeAt "g" = .error (.cycle "b") ∧
      t.contains "a" = true ∧ t.treeAt "a" = .ok r ∧ t.OwnIds ∧ r.ids.Nodup := by
  intro t r
  have hg : t.get? "g" = some (.group "g" .and false ["a", "b"] "g") := by simp [t, KeyMap.ofList]
  have ha : t.get? "a" = some (.group "a" .or false ["b"] "g") := by simp [t, KeyMap.ofList]
  have hb : t.get? "b" = some (.filter (.empty "b") "a") := by simp [t, KeyMap.ofList]
  have hown : t.OwnIds := by
    intro k e he
    simp only [t, KeyMap.ofList, List.foldl_cons, List.foldl_nil, KeyMap.get?_insert] at he
    split at he
    · next hk => cases he; exact hk
    split at he
    · next hk => cases he; exact hk
    split at he
    · next hk => cases he; exact hk
    · cases he
  obtain ⟨-, -, hg_walk, -⟩ := treeAt_walks (KeyMap.contains_iff.2 ⟨_, hg⟩)
  obtain ⟨-, -, ha_walk, -, hids⟩ := treeAt_walks (KeyMap.contains_iff.2 ⟨_, ha⟩)
  have hg_steps : Steps t (start "g") ⟨["b", "a", "g"], ["b"]⟩ :=
    .head (.meet (by simp) hg) (.head (.meet (by simp) ha) (.single (.meet (by simp) hb)))
  have ha_steps : Steps t (start "a") ⟨["b", "a"], []⟩ :=
    .head (.meet (by simp) ha) (.single (.meet (by simp) hb))
  have hcycle : t.treeAt "g" = .error (.cycle "b") :=
    (hg_walk _).2 (.error hg_steps (.cycle (by simp)))
  have htree : t.treeAt "a" = .ok r :=
    (ha_walk _).2 (.tree ha_steps (.group ha (.cons (.leaf hb) .nil)))
  exact ⟨KeyMap.contains_iff.2 ⟨_, hg⟩, hcycle, KeyMap.contains_iff.2 ⟨_, ha⟩, htree, hown,
    hids hown r htree⟩

end RuleTable

end RecordRules
