import RecordRules.Proofs.KeyMap.Listing
import RecordRules.Rule.Filter
import RecordRules.RuleTable.Basic

/-!
# Depth in any table

Parents lead from a node upwards (`RuleTable.Climbs`) until they come to a node that is its own
parent, or to an id that is not in the table; or they go round for ever.  A climb that ends has
gone through a node only once, since from every node on it the end is at another distance.  So it
has no more steps than there are nodes (`Climbs.le_size`), and to stop counting at that number
cuts off no climb that would have ended.
-/

namespace RecordRules.RuleTable

variable {α : Type}

/-- The id that a node names as its parent. -/
def parent? (t : RuleTable α) (id : String) : Option String := (t.get? id).map Entry.parent

/-- Parents lead from the first id to the second in this many steps, each of them from a node that
is not its own parent. -/
inductive Climbs (t : RuleTable α) : String → Nat → String → Prop where
  | here {id : String} : Climbs t id 0 id
  | up {id p k : String} {n : Nat} :
      t.parent? id = some p → p ≠ id → Climbs t p n k → Climbs t id (n + 1) k

/-- The id is not in the table, or it is that of a node that is its own parent. -/
def Top (t : RuleTable α) (id : String) : Prop := ∀ p, t.parent? id = some p → p = id

variable {t : RuleTable α} {id j k p start : String} {e : Entry α} {m n d steps : Nat}

/-- A node names as its parent what its entry says. -/
theorem parent?_eq_some_iff : t.parent? id = some p ↔ ∃ e, t.get? id = some e ∧ e.parent = p :=
  Option.map_eq_some_iff

/-- Only an id that is not in the table has no parent. -/
theorem parent?_eq_none_iff : t.parent? id = none ↔ t.get? id = none := Option.map_eq_none_iff

theorem parent?_of_get? (h : t.get? id = some e) : t.parent? id = some e.parent := by
  rw [parent?, h, Option.map_some]

/-- A climb ends at a node that is its own parent or at an id that is not in the table. -/
theorem top_iff : t.Top k ↔ t.parent? k = some k ∨ t.get? k = none := by
  rw [← parent?_eq_none_iff]
  constructor
  · intro h
    cases hp : t.parent? k with
    | none => exact .inr rfl
    | some p =>
      rw [h p hp]
      exact .inl rfl
  · rintro (hk | hk) p hp
    · exact Option.some.inj (hp.symm.trans hk)
    · cases hk.symm.trans hp

/-- From anywhere else it goes on. -/
theorem not_top_iff : ¬ t.Top k ↔ t.contains k = true ∧ t.parent? k ≠ some k := by
  rw [top_iff, not_or, ← KeyMap.contains_eq_false_iff, Bool.not_eq_false, and_comm]

/-! ## The chain of parents -/

namespace Climbs

/-- Parents lead from an id in one way only. -/
theorem unique (hj : Climbs t id n j) (hk : Climbs t id n k) : j = k := by
  induction hj with
  | here =>
    cases hk
    rfl
  | up hp _ _ ih =>
    cases hk with
    | up hp' _ hk =>
      obtain rfl := Option.some.inj (hp.symm.trans hp')
      exact ih hk

/-- No climb leads past the top. -/
theorem le_of_top (hj : Climbs t id m j) (htop : t.Top j) (hk : Climbs t id n k) : n ≤ m := by
  induction hj generalizing n with
  | here =>
    cases hk with
    | here => exact Nat.le_refl _
    | up hp hne _ => exact absurd (htop _ hp) hne
  | up hp _ _ ih =>
    cases hk with
    | here => exact Nat.zero_le _
    | up hp' _ hk =>
      obtain rfl := Option.some.inj (hp.symm.trans hp')
      exact Nat.succ_le_succ (ih htop hk)

/-- A climb may go on from where it is. -/
theorem snoc (h : Climbs t id n k) (hp : t.parent? k = some p) (hne : p ≠ k) :
    Climbs t id (n + 1) p := by
  induction h with
  | here => exact .up hp hne .here
  | up hq hq' _ ih => exact .up hq hq' (ih hp hne)

/-- The last step of a climb comes from a node that is not its own parent. -/
theorem exists_of_succ (h : Climbs t id (n + 1) k) :
    ∃ j, Climbs t id n j ∧ t.parent? j = some k ∧ k ≠ j := by
  induction n generalizing id with
  | zero =>
    cases h with
    | up hp hne h =>
      cases h
      exact ⟨id, .here, hp, hne⟩
  | succ n ih =>
    cases h with
    | up hp hne h =>
      obtain ⟨j, hj, hk⟩ := ih h
      exact ⟨j, .up hp hne hj, hk⟩

/-- A climb starts in the table if it ends there. -/
theorem exists_get? (h : Climbs t id n k) (hk : t.get? k = some e) :
    ∃ e', t.get? id = some e' := by
  cases h with
  | here => exact ⟨e, hk⟩
  | up hp _ _ =>
    obtain ⟨e', hget, -⟩ := parent?_eq_some_iff.1 hp
    exact ⟨e', hget⟩

/-- A climb may be made in two parts. -/
theorem trans (hj : Climbs t id m j) (hk : Climbs t j n k) : Climbs t id (m + n) k := by
  induction hj with
  | here => rwa [Nat.zero_add]
  | up hp hne _ ih =>
    rw [Nat.add_right_comm]
    exact .up hp hne (ih hk)

/-- The nodes on the way to the top are distinct: the top is at another distance from each. -/
theorem exists_trail (h : Climbs t id n k) (htop : t.Top k) :
    ∃ ids : List String, ids.length = n ∧ ids.Nodup ∧ (∀ j ∈ ids, t.contains j = true) ∧
      ∀ j, j ∈ ids ↔ ∃ m < n, Climbs t id m j := by
  induction h with
  | here => exact ⟨[], rfl, .nil, by simp, by simp⟩
  | @up id p k n hp hne h ih =>
    obtain ⟨ids, hlength, hnodup, hin, hids⟩ := ih htop
    obtain ⟨e, hget, -⟩ := parent?_eq_some_iff.1 hp
    -- a node further up that is the same one would be at two distances from the top
    have hnew : id ∉ ids := by
      intro hid
      obtain ⟨m, -, hm⟩ := (hids id).1 hid
      have hle := h.le_of_top htop (hm.trans (.up hp hne h))
      omega
    refine ⟨id :: ids, by rw [List.length_cons, hlength], List.nodup_cons.2 ⟨hnew, hnodup⟩,
      List.forall_mem_cons.2 ⟨KeyMap.contains_iff.2 ⟨e, hget⟩, hin⟩, fun j => ?_⟩
    rw [List.mem_cons, hids]
    constructor
    · rintro (rfl | ⟨m, hm, hj⟩)
      · exact ⟨0, Nat.succ_pos n, .here⟩
      · exact ⟨m + 1, Nat.succ_lt_succ hm, .up hp hne hj⟩
    · rintro ⟨m, hm, hj⟩
      cases hj with
      | here => exact .inl rfl
      | up hp' _ hj =>
        obtain rfl := Option.some.inj (hp.symm.trans hp')
        exact .inr ⟨_, Nat.lt_of_succ_lt_succ hm, hj⟩

/-- A climb that ends has no more steps than the table has nodes: its trail meets none of them
twice. -/
theorem le_size (h : Climbs t id n k) (htop : t.Top k) : n ≤ t.size := by
  obtain ⟨ids, rfl, hnodup, hin, -⟩ := h.exists_trail htop
  exact KeyMap.length_le_size hnodup hin

/-- A climb through every node has as many steps as a climb can have. -/
theorem eq_size (h : Climbs t id n k) (hk : t.parent? k = some k)
    (hall : ∀ j, t.contains j = true → ∃ m, Climbs t id m j) : n + 1 = t.size := by
  have htop : t.Top k := top_iff.2 (.inl hk)
  obtain ⟨ids, rfl, hnodup, hin, hids⟩ := h.exists_trail htop
  obtain ⟨e, hget, -⟩ := parent?_eq_some_iff.1 hk
  have hnew : k ∉ ids := by
    intro hk
    obtain ⟨m, hm, hk⟩ := (hids k).1 hk
    exact Nat.not_le_of_lt hm (hk.le_of_top htop h)
  -- every node is on the way, or it is the top
  have hkeys : t.keys ⊆ k :: ids := by
    intro j hj
    obtain ⟨m, hm⟩ := hall j (KeyMap.mem_keys.1 hj)
    rcases Nat.lt_or_eq_of_le (h.le_of_top htop hm) with hlt | rfl
    · exact .tail _ ((hids j).2 ⟨m, hlt, hm⟩)
    · rw [hm.unique h]
      exact .head _
  refine Nat.le_antisymm (KeyMap.length_le_size (List.nodup_cons.2 ⟨hnew, hnodup⟩)
    (List.forall_mem_cons.2 ⟨KeyMap.contains_iff.2 ⟨e, hget⟩, hin⟩)) ?_
  have hle := (t.nodup_keys.subperm hkeys).length_le
  rwa [KeyMap.keys, List.length_map, List.length_cons] at hle

end Climbs

/-- Where no top is reached, climbs go on for any number of steps. -/
theorem exists_climbs (h : ∀ n k, Climbs t id n k → ¬ t.Top k) (n : Nat) :
    ∃ k, Climbs t id n k := by
  induction n with
  | zero => exact ⟨id, .here⟩
  | succ n ih =>
    obtain ⟨k, hk⟩ := ih
    have htop := h n k hk
    simp only [Top, not_forall] at htop
    obtain ⟨p, hp, hne⟩ := htop
    exact ⟨p, hk.snoc hp hne⟩

/-! ## Counting the steps -/

/-- Nothing is counted at a node that is its own parent. -/
theorem climb_of_root (h : e.parent = id) : t.climb start steps id e = .ok 0 := by
  unfold climb
  rw [if_pos h]

/-- Elsewhere a step is counted and the count goes on at the parent. -/
theorem climb_succ {p : Entry α} (h : e.parent ≠ id) (hp : t.get? e.parent = some p) :
    t.climb start (steps + 1) id e = (t.climb start steps e.parent p).map (· + 1) := by
  rw [climb, if_neg h]
  simp only [hp]

/-- The count fails at a parent that is not in the table. -/
theorem climb_of_dangling (h : e.parent ≠ id) (hp : t.get? e.parent = none) :
    t.climb start (steps + 1) id e = .error (.danglingId e.parent) := by
  rw [climb, if_neg h]
  simp only [hp]

/-- When the steps run out, the count fails at the id it started from. -/
theorem climb_zero (h : e.parent ≠ id) : t.climb start 0 id e = .error (.cycle start) := by
  rw [climb, if_neg h]

/-- Steps that are possible are taken. -/
theorem climb_add {f : Entry α} (h : Climbs t id n k) (hget : t.get? id = some e)
    (hk : t.get? k = some f) (steps : Nat) :
    t.climb start (n + steps) id e = (t.climb start steps k f).map (· + n) := by
  induction h generalizing e with
  | here =>
    obtain rfl := Option.some.inj (hget.symm.trans hk)
    rw [Nat.zero_add]
    cases t.climb start steps _ e <;> rfl
  | @up id p k n hp hne h ih =>
    obtain rfl : e.parent = p := Option.some.inj ((parent?_of_get? hget).symm.trans hp)
    obtain ⟨e', hget'⟩ := h.exists_get? hk
    rw [Nat.add_right_comm, climb_succ hne hget', ih hget' hk]
    cases t.climb start steps k f <;> rfl

/-- As many steps are allowed as the table has nodes. -/
theorem depth_eq_climb (hget : t.get? id = some e) : t.depth id = t.climb id t.size id e := by
  rw [depth, node, hget]
  rfl

/-- A climb that ends at a root tells the depth; by `Climbs.le_size` it is not cut off. -/
theorem depth_eq_ok (hget : t.get? id = some e) (h : Climbs t id d k)
    (hk : t.parent? k = some k) : t.depth id = .ok d := by
  obtain ⟨f, hf, hroot⟩ := parent?_eq_some_iff.1 hk
  have hle := h.le_size (top_iff.2 (.inl hk))
  obtain ⟨steps, hsteps⟩ := Nat.exists_eq_add_of_le hle
  rw [depth_eq_climb hget, hsteps, climb_add h hget hf, climb_of_root hroot, Except.map,
    Nat.zero_add]

/-- A climb that ends outside the table tells the id that is missing. -/
theorem depth_eq_danglingId (hget : t.get? id = some e) (h : Climbs t id n k)
    (hk : t.get? k = none) : t.depth id = .error (.danglingId k) := by
  have hle := h.le_size (top_iff.2 (.inr hk))
  cases n with
  | zero =>
    cases h
    cases hget.symm.trans hk
  | succ n =>
    obtain ⟨j, hj, hp, hne⟩ := h.exists_of_succ
    obtain ⟨f, hf, rfl⟩ := parent?_eq_some_iff.1 hp
    obtain ⟨steps, hsteps⟩ := Nat.exists_eq_add_of_le hle
    rw [depth_eq_climb hget, hsteps, Nat.add_assoc, Nat.add_comm 1 steps, climb_add hj hget hf,
      climb_of_dangling hne hk, Except.map]

/-- A climb without an end makes the count run out of steps. -/
theorem depth_eq_cycle (hget : t.get? id = some e) (h : ∀ n k, Climbs t id n k → ¬ t.Top k) :
    t.depth id = .error (.cycle id) := by
  obtain ⟨k, hk⟩ := exists_climbs h (t.size + 1)
  obtain ⟨j, hj, hp, hne⟩ := hk.exists_of_succ
  obtain ⟨f, hf, rfl⟩ := parent?_eq_some_iff.1 hp
  rw [depth_eq_climb hget, ← Nat.add_zero t.size, climb_add hj hget hf, climb_zero hne, Except.map]

/-- The three ways in which the chain of parents can go on. -/
theorem depth_cases (h : t.contains id = true) :
    (∃ d k, Climbs t id d k ∧ t.parent? k = some k ∧ t.depth id = .ok d) ∨
    (∃ n k, Climbs t id n k ∧ t.contains k = false ∧ t.depth id = .error (.danglingId k)) ∨
    (∀ n k, Climbs t id n k → ¬ t.Top k) ∧ t.depth id = .error (.cycle id) := by
  obtain ⟨e, hget⟩ := KeyMap.contains_iff.1 h
  by_cases hend : ∃ n k, Climbs t id n k ∧ t.Top k
  · obtain ⟨n, k, hk, htop⟩ := hend
    rcases top_iff.1 htop with hroot | hnone
    · exact .inl ⟨n, k, hk, hroot, depth_eq_ok hget hk hroot⟩
    · exact .inr (.inl ⟨n, k, hk, KeyMap.contains_eq_false_iff.2 hnone,
        depth_eq_danglingId hget hk hnone⟩)
  · have hnever : ∀ n k, Climbs t id n k → ¬ t.Top k := fun n k hk htop => hend ⟨n, k, hk, htop⟩
    exact .inr (.inr ⟨hnever, depth_eq_cycle hget hnever⟩)

/-- The depth of a node in any table is the number of steps to a node that is its own parent.  It
fails exactly with the first id that is missing on the way, or if the way never ends.  A way
through all nodes of the table is not too long to be measured. -/
theorem depth_climbs (h : t.contains id = true) :
    (∀ d, t.depth id = .ok d ↔ ∃ k, Climbs t id d k ∧ t.parent? k = some k) ∧
    (∀ k, t.depth id = .error (.danglingId k) ↔ ∃ n, Climbs t id n k ∧ t.contains k = false) ∧
    (t.depth id = .error (.cycle id) ↔
      ∀ n k, Climbs t id n k → t.contains k = true ∧ t.parent? k ≠ some k) ∧
    ∀ k, t.parent? k = some k → (∀ j, t.contains j = true → ∃ n, Climbs t id n j) →
      t.depth id = .ok (t.size - 1) := by
  obtain ⟨e, hget⟩ := KeyMap.contains_iff.1 h
  -- each outcome goes with one way for the parents to go on, and these exclude each other
  refine ⟨fun d => ⟨fun hd => ?_, ?_⟩, fun k => ⟨fun hk => ?_, ?_⟩, ⟨fun hcycle => ?_, ?_⟩, ?_⟩
  · rcases depth_cases h with ⟨d', k, hk, hroot, hd'⟩ | ⟨n, k, -, -, hd'⟩ | ⟨-, hd'⟩
    · cases hd.symm.trans hd'
      exact ⟨k, hk, hroot⟩
    · cases hd.symm.trans hd'
    · cases hd.symm.trans hd'
  · rintro ⟨k, hk, hroot⟩
    exact depth_eq_ok hget hk hroot
  · rcases depth_cases h with ⟨d', k, -, -, hd'⟩ | ⟨n, k', hk', hnone, hd'⟩ | ⟨-, hd'⟩
    · cases hk.symm.trans hd'
    · cases hk.symm.trans hd'
      exact ⟨n, hk', hnone⟩
    · cases hk.symm.trans hd'
  · rintro ⟨n, hk, hnone⟩
    exact depth_eq_danglingId hget hk (KeyMap.contains_eq_false_iff.1 hnone)
  · rcases depth_cases h with ⟨d', k, -, -, hd'⟩ | ⟨n, k', -, -, hd'⟩ | ⟨hnever, -⟩
    · cases hcycle.symm.trans hd'
    · cases hcycle.symm.trans hd'
    · exact fun n k hk => not_top_iff.1 (hnever n k hk)
  · exact fun hnever => depth_eq_cycle hget fun n k hk => not_top_iff.2 (hnever n k hk)
  · intro k hroot hall
    obtain ⟨e', hget', -⟩ := parent?_eq_some_iff.1 hroot
    obtain ⟨d, hk⟩ := hall k (KeyMap.contains_iff.2 ⟨e', hget'⟩)
    rw [depth_eq_ok hget hk hroot, ← hk.eq_size hroot hall, Nat.add_sub_cancel]

/-- A chain through all three nodes of a table. -/
theorem depth_climbs_chain :
    let t : RuleTable Draft := .ofList [("a", .group "a" .and false ["b"] "a"),
      ("b", .group "b" .or false ["c"] "a"), ("c", .filter (.empty "c") "b")]
    t.contains "c" = true ∧ Climbs t "c" 2 "a" ∧ t.parent? "a" = some "a" ∧
      (∀ j, t.contains j = true → ∃ n, Climbs t "c" n j) ∧ t.depth "c" = .ok (t.size - 1) := by
  intro t
  have hc : t.get? "c" = some (.filter (.empty "c") "b") := by simp [t, KeyMap.ofList]
  have hb : t.get? "b" = some (.group "b" .or false ["c"] "a") := by simp [t, KeyMap.ofList]
  have ha : t.get? "a" = some (.group "a" .and false ["b"] "a") := by simp [t, KeyMap.ofList]
  have hup : Climbs t "c" 2 "a" :=
    .up (parent?_of_get? hc) (by decide) (.up (parent?_of_get? hb) (by decide) .here)
  have hall : ∀ j, t.contains j = true → ∃ n, Climbs t "c" n j := by
    have hkeys : t.keys = ["a", "b", "c"] := rfl
    intro j hj
    rw [← KeyMap.mem_keys, hkeys] at hj
    simp only [List.mem_cons, List.not_mem_nil, or_false] at hj
    rcases hj with rfl | rfl | rfl
    · exact ⟨2, hup⟩
    · exact ⟨1, .up (parent?_of_get? hc) (by decide) .here⟩
    · exact ⟨0, .here⟩
  have hin : t.contains "c" = true := KeyMap.contains_iff.2 ⟨_, hc⟩
  exact ⟨hin, hup, parent?_of_get? ha, hall,
    (depth_climbs hin).2.2.2 "a" (parent?_of_get? ha) hall⟩

end RecordRules.RuleTable
