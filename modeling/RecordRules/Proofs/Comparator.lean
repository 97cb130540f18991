import Mathlib.Data.Fintype.Basic
import Mathlib.Tactic.FinCases
import RecordRules.Builtins
import RecordRules.Dataset
import RecordRules.Proofs.StableOrder
import RecordRules.Proofs.StableOrder.Elements

/-!
# Sorting by a comparator

Where a comparator is lawful on some records, it sorts them stably (`exists_sort_eq_ok`).  It is
lawful where each of its keys is: comparing key by key is the lexicographic order
(`lawful_compareBy`).
-/

namespace RecordRules

open StableOrder

variable {records : List Value}

/-! ## Directions -/

instance {α : Type} {o : α → α → Ordering} [Std.TransCmp o] (d : Direction) :
    Std.TransCmp fun a b => d.apply (o a b) := by
  cases d with
  | asc => exact inferInstanceAs (Std.TransCmp o)
  | desc =>
    have hswap : (fun a b => Direction.desc.apply (o a b)) = fun a b => o b a := by
      funext a b
      exact Std.OrientedCmp.eq_swap.symm
    rw [hswap]
    exact Std.TransCmp.opposite

/-- A lawful comparison is lawful in both directions. -/
theorem StableOrder.Lawful.inDirection {α ε : Type} {cmp : α → α → Except ε Ordering} {l : List α}
    (h : Lawful cmp l) (d : Direction) : Lawful (fun a b => (cmp a b).map d.apply) l := by
  have := h.transCmp
  have hcmp : ∀ i j : Fin l.length, (cmp (l.get i) (l.get j)).map d.apply =
      .ok (d.apply (outcomeAt cmp l i j)) := by
    intro i j
    rw [h.eq_outcome (l.get_mem i) (l.get_mem j)]
    rfl
  exact lawful_of_eq_ok hcmp

/-! ## Keys one after another -/

namespace Comparator

variable {k : SortKey} {keys : List SortKey} {a b : Value} {o p : Ordering}

/-- The first key counts, and the others count where it is a tie. -/
theorem compareBy_cons_eq_ok (hk : k.compare a b = .ok o) (hkeys : compareBy a b keys = .ok p) :
    compareBy a b (k :: keys) = .ok (o.then p) := by
  rw [compareBy, hk, hkeys]
  cases o <;> rfl

/-- Comparing by keys fails only as one of them does. -/
theorem exists_key_of_compareBy_eq_error {e : EvalError} (h : compareBy a b keys = .error e) :
    ∃ k ∈ keys, k.compare a b = .error e := by
  induction keys with
  | nil => cases h
  | cons k keys ih =>
    rw [compareBy] at h
    cases hk : k.compare a b with
    | error e' =>
      rw [hk] at h
      obtain rfl := Except.error.inj h
      exact ⟨k, .head _, hk⟩
    | ok o =>
      rw [hk] at h
      cases o with
      | eq =>
        obtain ⟨k', hk', herror⟩ := ih h
        exact ⟨k', .tail _ hk', herror⟩
      | lt | gt => cases h

/-- Comparing by several keys is lawful when each of them is. -/
theorem lawful_compareBy (h : ∀ k ∈ keys, Lawful k.compare records) :
    Lawful (fun a b => compareBy a b keys) records := by
  induction keys with
  | nil =>
    have : Std.TransCmp fun _ _ : Fin records.length => Ordering.eq :=
      { eq_swap := rfl, isLE_trans := fun _ _ => rfl }
    exact lawful_of_eq_ok fun _ _ => rfl
  | cons k keys ih =>
    obtain ⟨hk, hkeys⟩ := List.forall_mem_cons.1 h
    have hkeys := ih hkeys
    have := hk.transCmp
    have := hkeys.transCmp
    have hcompare : ∀ i j : Fin records.length,
        compareBy (records.get i) (records.get j) (k :: keys) =
          .ok (compareLex (outcomeAt k.compare records)
            (outcomeAt (fun a b => compareBy a b keys) records) i j) := fun i j =>
      compareBy_cons_eq_ok (hk.eq_outcome (records.get_mem i) (records.get_mem j))
        (hkeys.eq_outcome (records.get_mem i) (records.get_mem j))
    exact lawful_of_eq_ok hcompare

/-! ## Sorting -/

variable {c : Comparator}

/-- With a key, records are sorted by merging. -/
theorem sort_of_ne_nil (h : c.keys ≠ []) (records : List Value) :
    c.sort records = StableOrder.sort c.compare records := by
  have hrecords : (List.range records.length).map (records.getD · .null) = records := by
    refine List.ext_getElem (by simp) fun i hi hi' => ?_
    simp [hi']
  have hsort : c.sort records =
      StableOrder.sort c.compare ((List.range records.length).map (records.getD · .null)) := by
    obtain ⟨keys⟩ := c
    obtain ⟨k, keys, rfl⟩ := List.exists_cons_of_ne_nil h
    exact (sort_map _ _ _).symm
  rw [hsort, hrecords]

/-- Without keys the records stay as they are. -/
theorem sort_of_nil (h : c.keys = []) (records : List Value) : c.sort records = .ok records := by
  rw [sort, h]

/-- Whatever the keys, no record is lost or doubled. -/
theorem sort_arranges (c : Comparator) (records : List Value) :
    Arranges c.compare records (c.sort records) := by
  by_cases hkeys : c.keys = []
  · rw [sort_of_nil hkeys]
    exact .ok (.refl records)
  · rw [sort_of_ne_nil hkeys]
    exact StableOrder.sort_arranges records

/-- On records that compare lawfully, sorting is insertion sort. -/
theorem sort_eq_insertionSort (h : Lawful c.compare records) :
    c.sort records = .ok (records.insertionSort (NoLater (outcome c.compare))) := by
  by_cases hkeys : c.keys = []
  · -- all records tie, and none of them moves
    have hties : records.Pairwise (NoLater (outcome c.compare)) :=
      List.pairwise_of_forall fun _ _ => by
        rw [NoLater, outcome, compare, hkeys]
        rfl
    rw [sort_of_nil hkeys, hties.insertionSort_eq]
  · rw [sort_of_ne_nil hkeys, h.sort_eq_insertionSort]

/-- Records that compare lawfully are sorted without failure, and stably: they are those of the
list in ascending order, where ties stand in the order of the list, and as inserting one record
after the other has them. -/
theorem exists_sort_eq_ok (h : Lawful c.compare records) :
    ∃ sorted, c.sort records = .ok sorted ∧
      IsStableSort (fun a b o => c.compare a b = .ok o) records sorted ∧
      sorted = records.insertionSort (NoLater (outcome c.compare)) :=
  ⟨_, sort_eq_insertionSort h, h.isStableSort_insertionSort, rfl⟩

/-- Downwards by a number, where the first and the last of three records tie. -/
theorem exists_sort_eq_ok_ties : ∃ (c : Comparator) (records sorted : List Value),
    records = [.recordOf [("k", .int 1), ("name", .text "a")],
      .recordOf [("k", .int 2), ("name", .text "b")],
      .recordOf [("k", .int 1), ("name", .text "c")]] ∧
    Lawful c.compare records ∧ c.sort records = .ok sorted ∧
      IsStableSort (fun a b o => c.compare a b = .ok o) records sorted ∧
      sorted = records.insertionSort (NoLater (outcome c.compare)) ∧
      sorted = [.recordOf [("k", .int 2), ("name", .text "b")],
        .recordOf [("k", .int 1), ("name", .text "a")],
        .recordOf [("k", .int 1), ("name", .text "c")]] := by
  let operation : StandardOperation :=
    { name := "compare"
      signature := ⟨[.int, .int], .ordering⟩
      run := Builtins.compare.run
      skipValidate := false
      notes := []
      origin := none }
  let c : Comparator := ⟨[⟨[.field "k"], operation, .desc⟩]⟩
  let records : List Value := [.recordOf [("k", .int 1), ("name", .text "a")],
    .recordOf [("k", .int 2), ("name", .text "b")], .recordOf [("k", .int 1), ("name", .text "c")]]
  let rank (i : Fin 3) : Nat := if i = 1 then 0 else 1
  have hcompare : ∀ i j : Fin 3, c.compare (records.get i) (records.get j) =
      .ok (compareOn rank i j) := by
    intro i j
    fin_cases i <;> fin_cases j <;> rfl
  have hlawful : Lawful c.compare records := lawful_of_eq_ok hcompare
  obtain ⟨sorted, hsorted, hstable, heq⟩ := exists_sort_eq_ok hlawful
  refine ⟨c, records, sorted, rfl, hlawful, hsorted, hstable, heq, ?_⟩
  have hsort : c.sort records = .ok [.recordOf [("k", .int 2), ("name", .text "b")],
      .recordOf [("k", .int 1), ("name", .text "a")],
      .recordOf [("k", .int 1), ("name", .text "c")]] := rfl
  exact Except.ok.inj (hsorted.symm.trans hsort)

end Comparator

end RecordRules
