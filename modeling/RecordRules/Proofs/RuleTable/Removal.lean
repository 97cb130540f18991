import Mathlib.Logic.Relation
import RecordRules.Proofs.KeyMap.Listing
import RecordRules.Rule.Filter
import RecordRules.RuleTable.Edit

/-!
# Removing a node from any table

`RuleTable.sweep` takes nodes out of the table while it goes through the ids that are still to be
taken out.  What they reach by conditions does not change if an id goes that has been dealt with,
apart from the id itself and what its conditions reach (`exists_reaches_cons_iff`).  So it takes out
just what they reach in the whole table (`get?_sweep`), each node once.

Before that the node is taken off the conditions of its parent, which has no effect on what the node
reaches (`reaches_unlink_iff`).
-/

namespace RecordRules.RuleTable

variable {α : Type}

/-- The node under the first id lists the second one as a condition. -/
def HasCondition (t : RuleTable α) (id k : String) : Prop :=
  ∃ e, t.get? id = some e ∧ k ∈ e.conditions

/-- Conditions lead from the first id to the second. -/
abbrev Reaches (t : RuleTable α) : String → String → Prop := Relation.ReflTransGen t.HasCondition

variable {t : RuleTable α} {id j k p parent : String} {e : Entry α} {ids : List String}
  {removed : Nat}

/-! ## Taking out what is reached -/

/-- Nothing is reached from an id that is not in the table. -/
theorem eq_of_reaches (hget : t.get? id = none) (h : t.Reaches id k) : k = id := by
  rcases h.cases_head with rfl | ⟨j, ⟨e, he, -⟩, -⟩
  · rfl
  · cases hget.symm.trans he

/-- No condition is listed anew when an entry goes. -/
theorem HasCondition.of_erase (h : HasCondition (t.erase id) j k) : t.HasCondition j k := by
  obtain ⟨e, he, hk⟩ := h
  rw [KeyMap.get?_erase] at he
  split at he
  · cases he
  · exact ⟨e, he, hk⟩

/-- The other entries still list their conditions when one goes. -/
theorem HasCondition.erase (h : t.HasCondition j k) (hne : j ≠ id) :
    HasCondition (t.erase id) j k := by
  obtain ⟨e, he, hk⟩ := h
  refine ⟨e, ?_, hk⟩
  rw [KeyMap.get?_erase, if_neg (Ne.symm hne), he]

/-- The part of a way behind the last time that it goes through a node. -/
theorem reaches_erase_or (hget : t.get? id = some e) (h : t.Reaches p k) :
    Reaches (t.erase id) p k ∨ ∃ c ∈ e.conditions, Reaches (t.erase id) c k := by
  induction h using Relation.ReflTransGen.head_induction_on with
  | refl => exact .inl .refl
  | @head p q hpq _ ih =>
    rcases ih with hq | hc
    · by_cases hp : p = id
      · subst hp
        obtain ⟨e', he', hq'⟩ := hpq
        obtain rfl := Option.some.inj (hget.symm.trans he')
        exact .inr ⟨q, hq', hq⟩
      · exact .inl (.head (hpq.erase hp) hq)
    · exact .inr hc

/-- What an id and others reach is the id itself and what its conditions and the others reach
without it. -/
theorem exists_reaches_cons_iff (hget : t.get? id = some e) :
    (∃ p ∈ id :: ids, t.Reaches p k) ↔
      k = id ∨ ∃ p ∈ e.conditions.reverse ++ ids, Reaches (t.erase id) p k := by
  have hmono : ∀ {p}, Reaches (t.erase id) p k → t.Reaches p k :=
    fun {p} h => Relation.ReflTransGen.mono (fun _ _ => HasCondition.of_erase) p k h
  constructor
  · rintro ⟨p, hp, h⟩
    rcases reaches_erase_or hget h with h | ⟨c, hc, h⟩
    · rcases List.mem_cons.1 hp with rfl | hp
      · exact .inl (eq_of_reaches (by simp) h)
      · exact .inr ⟨p, List.mem_append_right _ hp, h⟩
    · exact .inr ⟨c, List.mem_append_left _ (List.mem_reverse.2 hc), h⟩
  · rintro (rfl | ⟨p, hp, h⟩)
    · exact ⟨k, .head _, .refl⟩
    · rcases List.mem_append.1 hp with hp | hp
      · exact ⟨id, .head _, .head ⟨e, hget, List.mem_reverse.1 hp⟩ (hmono h)⟩
      · exact ⟨p, .tail _ hp, hmono h⟩

/-- What is left after a sweep is what no id of the list reaches. -/
theorem get?_sweep (t : RuleTable α) (removed : Nat) (ids : List String) (k : String)
    (e : Entry α) :
    (t.sweep removed ids).2.get? k = some e ↔
      t.get? k = some e ∧ ¬ ∃ p ∈ ids, t.Reaches p k := by
  fun_induction sweep t removed ids with
  | case1 t removed => simp
  | case2 t removed id rest e' hget ih =>
    rw [ih, exists_reaches_cons_iff hget, KeyMap.get?_erase, not_or]
    by_cases hk : id = k
    · simp [hk]
    · simp [hk, Ne.symm hk]
  | case3 t removed id rest hget ih =>
    rw [ih]
    refine and_congr_right fun he => not_congr ?_
    simp only [List.mem_cons, exists_eq_or_imp]
    -- an id that is not there reaches nothing but itself
    refine (or_iff_right fun h => ?_).symm
    cases hget.symm.trans (eq_of_reaches hget h ▸ he)

/-- A sweep counts the nodes that it takes out. -/
theorem fst_sweep_add_size (t : RuleTable α) (removed : Nat) (ids : List String) :
    (t.sweep removed ids).1 + (t.sweep removed ids).2.size = removed + t.size := by
  fun_induction sweep t removed ids with
  | case1 => rfl
  | case2 t removed id rest e hget ih =>
    rw [ih, ← KeyMap.size_erase_add_one hget]
    omega
  | case3 _ _ _ _ _ ih => exact ih

/-! ## Taking a node off the conditions of its parent -/

/-- The group, if it is there, no longer lists the id. -/
def unlink (t : RuleTable α) (parent id : String) : RuleTable α :=
  t.modify parent (·.mapConditions (·.filter (· ≠ id)))

/-- Only the parent changes, and only its list of conditions. -/
theorem get?_unlink (t : RuleTable α) (parent id k : String) :
    (t.unlink parent id).get? k =
      if k = parent then (t.get? k).map (·.mapConditions (·.filter (· ≠ id))) else t.get? k := by
  rw [unlink, KeyMap.get?_modify]
  simp only [eq_comm]

/-- Only the one condition is taken away. -/
theorem hasCondition_unlink_iff :
    HasCondition (t.unlink parent id) j k ↔ t.HasCondition j k ∧ ¬ (j = parent ∧ k = id) := by
  have hlists : ∀ e : Entry α,
      k ∈ (e.mapConditions (·.filter (· ≠ id))).conditions ↔ k ∈ e.conditions ∧ k ≠ id := by
    intro e
    cases e <;> simp [Entry.mapConditions, Entry.conditions]
  simp only [HasCondition, get?_unlink]
  by_cases hj : j = parent
  · subst hj
    simp only [if_true, Option.map_eq_some_iff, true_and]
    constructor
    · rintro ⟨_, ⟨e, he, rfl⟩, hk⟩
      exact ⟨⟨e, he, ((hlists e).1 hk).1⟩, ((hlists e).1 hk).2⟩
    · rintro ⟨⟨e, he, hk⟩, hne⟩
      exact ⟨_, ⟨e, he, rfl⟩, (hlists e).2 ⟨hk, hne⟩⟩
  · simp [hj]

/-- No entry goes when a condition is taken off a list. -/
@[simp] theorem size_unlink : (t.unlink parent id).size = t.size := KeyMap.size_modify _ _ _

/-- A way that comes back to its start can be left out. -/
theorem reaches_unlink_iff : Reaches (t.unlink parent id) id k ↔ t.Reaches id k := by
  constructor
  · exact Relation.ReflTransGen.mono (fun _ _ h => (hasCondition_unlink_iff.1 h).1) id k
  · intro h
    induction h with
    | refl => exact .refl
    | @tail j k _ hjk ih =>
      -- only the condition that leads back to the node itself was taken away
      by_cases hk : k = id
      · subst hk
        exact .refl
      · exact ih.tail (hasCondition_unlink_iff.2 ⟨hjk, fun h => hk h.2⟩)

@[simp] theorem contains_unlink : (t.unlink parent id).contains k = t.contains k := by
  rw [KeyMap.contains, get?_unlink, KeyMap.contains]
  split
  · exact Option.isSome_map
  · rfl

/-- What a removal leaves. -/
theorem get?_sweep_unlink {e' : Entry α} : ((t.unlink parent id).sweep 0 [id]).2.get? k = some e' ↔
    (t.unlink parent id).get? k = some e' ∧ ¬ t.Reaches id k := by
  simp only [get?_sweep, List.mem_singleton, exists_eq_left, reaches_unlink_iff]

/-- Removing a node that is not its own parent takes out, of any table, just the nodes that it
reaches, and tells how many they are.  Of the other nodes only the group named as its parent
changes, which no longer lists the node. -/
theorem remove_takes_reached (hget : t.get? id = some e) (hparent : e.parent ≠ id) :
    ∃ count t', remove id t = .ok count t' ∧
      (∀ k, t.Reaches id k → t'.get? k = none) ∧
      (∀ k, ¬ t.Reaches id k → t'.get? k =
        if k = e.parent then (t.get? k).map (·.mapConditions (·.filter (· ≠ id)))
        else t.get? k) ∧
      count = (t.keys.filter fun k => !t'.contains k).length ∧ count + t'.size = t.size := by
  have hremove : remove id t = .ok ((t.unlink e.parent id).sweep 0 [id]).1
      ((t.unlink e.parent id).sweep 0 [id]).2 := by
    rw [remove_apply, hget]
    exact if_neg hparent
  have hcount := fst_sweep_add_size (t.unlink e.parent id) 0 [id]
  rw [Nat.zero_add, size_unlink] at hcount
  -- no key is new after the removal, so the nodes that went are those of the table that are missing
  have hkeys : ∀ k, ((t.unlink e.parent id).sweep 0 [id]).2.contains k = true →
      t.contains k = true := by
    intro k hk
    obtain ⟨e', he'⟩ := KeyMap.contains_iff.1 hk
    rw [← contains_unlink]
    exact KeyMap.contains_iff.2 ⟨e', (get?_sweep_unlink.1 he').1⟩
  have hsize := KeyMap.size_add_length_filter hkeys
  refine ⟨_, _, hremove, fun k hk => ?_, fun k hk => ?_, by omega, hcount⟩
  · rw [Option.eq_none_iff_forall_ne_some]
    intro e' he'
    exact (get?_sweep_unlink.1 he').2 hk
  · rw [← get?_unlink]
    exact Option.ext fun e' => get?_sweep_unlink.trans (and_iff_left hk)

/-- A group that lists itself and an id that is not there, and that its parent lists twice. -/
theorem remove_takes_reached_tangled :
    let t : RuleTable Draft := .ofList [("r", .group "r" .and false ["x", "y", "x"] "r"),
      ("x", .group "x" .or false ["y", "z", "x"] "r"), ("y", .filter (.empty "y") "r")]
    t.get? "x" = some (.group "x" .or false ["y", "z", "x"] "r") ∧ "r" ≠ "x" ∧
      ∃ t' : RuleTable Draft, remove "x" t = .ok 2 t' ∧ t'.get? "x" = none ∧ t'.get? "y" = none ∧
        t'.get? "r" = some (.group "r" .and false ["y"] "r") ∧ t'.size = 1 := by
  intro t
  have hr : t.get? "r" = some (.group "r" .and false ["x", "y", "x"] "r") := by
    simp [t, KeyMap.ofList]
  have hx : t.get? "x" = some (.group "x" .or false ["y", "z", "x"] "r") := by
    simp [t, KeyMap.ofList]
  have hy : t.get? "y" = some (.filter (.empty "y") "r") := by simp [t, KeyMap.ofList]
  have hz : t.get? "z" = none := by simp [t, KeyMap.ofList]
  have hreach : ∀ k, t.Reaches "x" k → k ∈ ["y", "z", "x"] := by
    intro k hk
    induction hk with
    | refl => simp
    | tail _ hjk ih =>
      obtain ⟨e, he, hk⟩ := hjk
      simp only [List.mem_cons, List.not_mem_nil, or_false] at ih
      rcases ih with rfl | rfl | rfl
      · obtain rfl := Option.some.inj (hy.symm.trans he)
        cases hk
      · cases hz.symm.trans he
      · obtain rfl := Option.some.inj (hx.symm.trans he)
        exact hk
  obtain ⟨count, t', hremove, hgone, hstays, hcount, hsize⟩ :=
    remove_takes_reached hx (by decide)
  have hr' : t'.get? "r" = some (.group "r" .and false ["y"] "r") := by
    rw [hstays "r" fun h => by simpa using hreach _ h]
    simp [hr, Entry.parent, Entry.mapConditions]
  have hx' : t'.get? "x" = none := hgone _ .refl
  have hy' : t'.get? "y" = none := hgone _ (.single ⟨_, hx, .head _⟩)
  have htwo : count = 2 := by
    have hkeys : t.keys = ["r", "x", "y"] := rfl
    simp [hcount, hkeys, KeyMap.contains, hr', hx', hy']
  have hthree : t.size = 3 := rfl
  subst htwo
  exact ⟨hx, by decide, t', hremove, hx', hy', hr', by omega⟩

end RecordRules.RuleTable
