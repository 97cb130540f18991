import Mathlib.Data.Set.Defs
import RecordRules.Builtins
import RecordRules.Proofs.Comparator
import RecordRules.Proofs.Value.Order

/-!
# Comparing key by key

The operation of a key answers two values with a number, of which only the sign counts.  The first
key whose sign is not zero decides how two records compare (`compareBy_eq_ok_iff`).  If the signs
of each key are those of an order on some records, so are the outcomes on these records
(`compare_lexicographic`): what ties by one key is left to the later ones, and it is because ties
are transitive that these may decide.
-/

namespace RecordRules

open StableOrder

/-! ## Signs -/

/-- The sign of a number, whole or decimal, as the order of the number and zero. -/
theorem SortKey.signOf_eq_ok_iff {name : String} {v : Value} {o : Ordering} :
    SortKey.signOf name v = .ok o ↔ ∃ x, v.worth? = some x ∧ Ord.compare x 0 = o := by
  cases v with
  | int i =>
    have hsign : Ord.compare (i.toInt : ℚ) 0 = Ord.compare i.toInt 0 := by
      rw [← Int.cast_zero, Value.compare_intCast]
    simp [signOf, Value.worth?, hsign]
  | decimal d => simp [signOf, Value.worth?, Decimal.sign_eq]
  | _ => simp [signOf, Value.worth?]

namespace SortKey

variable {k : SortKey} {S : Set Value} {records : List Value} {a b : Value} {o : Ordering}

/-- The operation of the key answers the values of two records with a number of this sign. -/
def Signed (k : SortKey) (a b : Value) (o : Ordering) : Prop :=
  ∃ v x, k.operation.run [a.atPath k.path, b.atPath k.path] = .ok v ∧ v.worth? = some x ∧
    Ord.compare x 0 = o

/-- The operation of the key answers any two of the records with a number, and the signs of these
numbers are antisymmetric and transitive. -/
structure Orders (k : SortKey) (S : Set Value) : Prop where
  answers : ∀ a ∈ S, ∀ b ∈ S, ∃ o, k.Signed a b o
  antisymm : ∀ a ∈ S, ∀ b ∈ S, ∀ o, k.Signed a b o → k.Signed b a o.swap
  trans : ∀ a ∈ S, ∀ b ∈ S, ∀ c ∈ S, ∀ o p q, k.Signed a b o → k.Signed b c p →
    k.Signed a c q → o ≠ .gt → p ≠ .gt → q ≠ .gt

/-- The sign is the one that the key reads off the answer. -/
theorem signed_iff : k.Signed a b o ↔ ∃ v,
    k.operation.run [a.atPath k.path, b.atPath k.path] = .ok v ∧
      signOf k.operation.name v = .ok o := by
  simp only [Signed, signOf_eq_ok_iff, exists_and_left]

/-- A key compares by the sign, in its direction. -/
theorem compare_eq_ok_iff :
    k.compare a b = .ok o ↔ ∃ p, k.Signed a b p ∧ k.direction.apply p = o := by
  simp only [SortKey.compare, signed_iff]
  cases k.operation.run [a.atPath k.path, b.atPath k.path] with
  | error cause => simp
  | ok v => simp [map_eq_ok_iff]

/-- An answer has one sign only. -/
theorem Signed.unique {p : Ordering} (ho : k.Signed a b o) (hp : k.Signed a b p) : o = p := by
  obtain ⟨v, x, hv, hx, rfl⟩ := ho
  obtain ⟨w, y, hw, hy, rfl⟩ := hp
  obtain rfl := Except.ok.inj (hv.symm.trans hw)
  obtain rfl := Option.some.inj (hx.symm.trans hy)
  rfl

/-- The same key upwards. -/
def upwards (k : SortKey) : SortKey := { k with direction := .asc }

/-- Upwards a key compares by the sign itself. -/
theorem upwards_compare_eq_ok_iff : k.upwards.compare a b = .ok o ↔ k.Signed a b o := by
  rw [compare_eq_ok_iff]
  constructor
  · rintro ⟨p, hp, rfl⟩
    exact hp
  · intro ho
    exact ⟨o, ho, rfl⟩

/-- The direction is applied at the end, so failures do not depend on it. -/
theorem compare_eq_map (k : SortKey) (a b : Value) :
    k.compare a b = (k.upwards.compare a b).map k.direction.apply := by
  unfold SortKey.compare upwards
  cases k.operation.run [a.atPath k.path, b.atPath k.path] with
  | error cause => rfl
  | ok v =>
    show (signOf k.operation.name v).map _ = ((signOf k.operation.name v).map _).map _
    cases signOf k.operation.name v <;> rfl

namespace Orders

/-- A key whose signs are those of an order is lawful upwards. -/
theorem lawful_upwards (h : k.Orders S) (hrecords : ∀ a ∈ records, a ∈ S) :
    Lawful k.upwards.compare records where
  succeeds a ha b hb := by
    obtain ⟨o, ho⟩ := h.answers a (hrecords a ha) b (hrecords b hb)
    exact ⟨o, upwards_compare_eq_ok_iff.2 ho⟩
  swap a ha b hb o ho := by
    rw [upwards_compare_eq_ok_iff] at ho ⊢
    exact h.antisymm a (hrecords a ha) b (hrecords b hb) o ho
  trans a ha b hb c hc hab hbc hac := by
    obtain ⟨o, ho⟩ := h.answers a (hrecords a ha) b (hrecords b hb)
    obtain ⟨p, hp⟩ := h.answers b (hrecords b hb) c (hrecords c hc)
    rw [upwards_compare_eq_ok_iff.2 ho, ne_eq, Except.ok.injEq] at hab
    rw [upwards_compare_eq_ok_iff.2 hp, ne_eq, Except.ok.injEq] at hbc
    exact h.trans a (hrecords a ha) b (hrecords b hb) c (hrecords c hc) o p .gt ho hp
      (upwards_compare_eq_ok_iff.1 hac) hab hbc rfl

/-- Downwards the signs are reversed, which keeps the laws. -/
theorem lawful (h : k.Orders S) (hrecords : ∀ a ∈ records, a ∈ S) : Lawful k.compare records := by
  have hcompare : k.compare = fun a b => (k.upwards.compare a b).map k.direction.apply := by
    funext a b
    exact k.compare_eq_map a b
  rw [hcompare]
  exact (h.lawful_upwards hrecords).inDirection k.direction

end Orders

/-- Signs that are those of an order are antisymmetric and transitive. -/
theorem orders_of_signed {order : Value → Value → Ordering} [Std.TransCmp order]
    (h : ∀ a ∈ S, ∀ b ∈ S, k.Signed a b (order a b)) : k.Orders S where
  answers a ha b hb := ⟨_, h a ha b hb⟩
  antisymm a ha b hb o ho := by
    obtain rfl := (h a ha b hb).unique ho
    rw [← Std.OrientedCmp.eq_swap]
    exact h b hb a ha
  trans a ha b hb c hc o p q ho hp hq := by
    obtain rfl := (h a ha b hb).unique ho
    obtain rfl := (h b hb c hc).unique hp
    obtain rfl := (h a ha c hc).unique hq
    simp only [← Ordering.isLE_iff_ne_gt]
    exact Std.TransCmp.isLE_trans

/-- So are those of an operation that orders whole numbers, where the key leads to such. -/
theorem orders_of_ints (hints : ∀ a ∈ S, ∃ i, a.atPath k.path = .int i)
    (hrun : ∀ i j : Int64, ∃ v, k.operation.run [.int i, .int j] = .ok v ∧
      signOf k.operation.name v = .ok (Ord.compare i.toInt j.toInt)) : k.Orders S := by
  refine @orders_of_signed _ _ (compareOn fun a => (a.atPath k.path).worth?.getD 0) _ ?_
  intro a ha b hb
  obtain ⟨i, hi⟩ := hints a ha
  obtain ⟨j, hj⟩ := hints b hb
  obtain ⟨v, hv, hsign⟩ := hrun i j
  have horder : compareOn (fun a => (a.atPath k.path).worth?.getD 0) a b =
      Ord.compare i.toInt j.toInt := by
    rw [compareOn, hi, hj]
    exact Value.compare_intCast i.toInt j.toInt
  rw [← hi, ← hj] at hv
  exact signed_iff.2 ⟨v, hv, hsign.trans (congrArg _ horder.symm)⟩

end SortKey

/-! ## The first key that decides -/

namespace Comparator

/-- How two records compare by the signs of the keys: by the first one that is not zero, in the
direction of its key, and not at all if there is none. -/
inductive Decides (a b : Value) : List SortKey → Ordering → Prop where
  | ties {keys : List SortKey} : (∀ k ∈ keys, k.Signed a b .eq) → Decides a b keys .eq
  | first {before after : List SortKey} {k : SortKey} {o : Ordering} :
      (∀ k ∈ before, k.Signed a b .eq) → k.Signed a b o → o ≠ .eq →
      Decides a b (before ++ k :: after) (k.direction.apply o)

section

variable {a b : Value} {k : SortKey} {keys before : List SortKey} {o p : Ordering}

/-- A key that ties leaves the decision to the others. -/
theorem Decides.cons (hk : k.Signed a b .eq) (h : Decides a b keys o) :
    Decides a b (k :: keys) o := by
  cases h with
  | ties hkeys => exact .ties (List.forall_mem_cons.2 ⟨hk, hkeys⟩)
  | first hbefore ho hne => exact .first (List.forall_mem_cons.2 ⟨hk, hbefore⟩) ho hne

/-- A key that ties is passed over. -/
theorem compareBy_cons_of_tie (hk : k.Signed a b .eq) :
    compareBy a b (k :: keys) = compareBy a b keys := by
  have htie : k.direction.apply .eq = .eq := by cases k.direction <;> rfl
  rw [compareBy, SortKey.compare_eq_ok_iff.2 ⟨.eq, hk, htie⟩]
  rfl

/-- The first key that does not tie decides, and the others are not asked. -/
theorem compareBy_cons_of_ne (hk : k.Signed a b o) (hne : o ≠ .eq) :
    compareBy a b (k :: keys) = .ok (k.direction.apply o) := by
  rw [compareBy, SortKey.compare_eq_ok_iff.2 ⟨o, hk, rfl⟩]
  cases o with
  | eq => exact absurd rfl hne
  | lt | gt => cases k.direction <;> rfl

/-- Keys that tie are passed over, however many there are. -/
theorem compareBy_append (h : ∀ k ∈ before, k.Signed a b .eq) :
    compareBy a b (before ++ keys) = compareBy a b keys := by
  induction before with
  | nil => rfl
  | cons k before ih =>
    obtain ⟨hk, hbefore⟩ := List.forall_mem_cons.1 h
    rw [List.cons_append, compareBy_cons_of_tie hk, ih hbefore]

/-- Comparing by the keys gives what the first one that does not tie decides. -/
theorem Decides.compareBy_eq_ok (h : Decides a b keys o) : compareBy a b keys = .ok o := by
  cases h with
  | ties hkeys =>
    rw [← List.append_nil keys, compareBy_append hkeys]
    rfl
  | first hbefore ho hne => rw [compareBy_append hbefore, compareBy_cons_of_ne ho hne]

/-- Where the comparison succeeds, its first key has answered with a number. -/
theorem exists_signed_of_compareBy_eq_ok (h : compareBy a b (k :: keys) = .ok o) :
    ∃ p, k.Signed a b p := by
  rw [compareBy] at h
  obtain ⟨p, hp, -⟩ := bind_eq_ok_iff.1 h
  obtain ⟨q, hq, -⟩ := SortKey.compare_eq_ok_iff.1 hp
  exact ⟨q, hq⟩

/-- The outcome of the keys is that of the first one that does not tie. -/
theorem compareBy_eq_ok_iff : compareBy a b keys = .ok o ↔ Decides a b keys o := by
  refine ⟨fun h => ?_, Decides.compareBy_eq_ok⟩
  induction keys with
  | nil =>
    obtain rfl : .eq = o := Except.ok.inj h
    exact .ties (by simp)
  | cons k keys ih =>
    obtain ⟨p, hp⟩ := exists_signed_of_compareBy_eq_ok h
    by_cases htie : p = .eq
    · subst htie
      rw [compareBy_cons_of_tie hp] at h
      exact (ih h).cons hp
    · rw [compareBy_cons_of_ne hp htie] at h
      obtain rfl := Except.ok.inj h
      exact @Decides.first a b [] keys k p (by simp) hp htie

end

/-! ## Laws -/

section

variable {c : Comparator} {S : Set Value}

/-- Where the signs of each key are antisymmetric and transitive, any two records compare, by the
first key whose sign is not zero in its direction, and records that no key tells apart tie.  How
they compare is a total preorder: reversed with the records and transitive, ties and what is
strict by themselves as well. -/
theorem compare_lexicographic (h : ∀ k ∈ c.keys, k.Orders S) :
    (∀ a ∈ S, ∀ b ∈ S, ∃ o, c.compare a b = .ok o) ∧
    (∀ a b o, c.compare a b = .ok o ↔ Decides a b c.keys o) ∧
    (∀ a ∈ S, ∀ b ∈ S, ∀ o, c.compare a b = .ok o → c.compare b a = .ok o.swap) ∧
    (∀ a ∈ S, ∀ b ∈ S, ∀ d ∈ S, c.compare a b ≠ .ok .gt → c.compare b d ≠ .ok .gt →
      c.compare a d ≠ .ok .gt) ∧
    ∀ a ∈ S, ∀ b ∈ S, ∀ d ∈ S, ∀ o, c.compare a b = .ok o → c.compare b d = .ok o →
      c.compare a d = .ok o := by
  -- the laws are about three records at most, so finitely many of the set are enough
  have hlawful : ∀ a ∈ S, ∀ b ∈ S, ∀ d ∈ S, Lawful c.compare [a, b, d] := by
    intro a ha b hb d hd
    refine lawful_compareBy fun k hk => (h k hk).lawful ?_
    simp [ha, hb, hd]
  refine ⟨?_, fun a b o => compareBy_eq_ok_iff, ?_, ?_, ?_⟩
  · intro a ha b hb
    exact (hlawful a ha b hb b hb).succeeds a (by simp) b (by simp)
  · intro a ha b hb
    exact (hlawful a ha b hb b hb).swap a (by simp) b (by simp)
  · intro a ha b hb d hd
    exact (hlawful a ha b hb d hd).trans a (by simp) b (by simp) d (by simp)
  · intro a ha b hb d hd o
    exact (hlawful a ha b hb d hd).trans_eq_ok (by simp) (by simp) (by simp)

/-- Downwards by decimals and then upwards by whole numbers, on all records with two numbers. -/
theorem compare_lexicographic_mixed : ∃ (c : Comparator) (S : Set Value),
    S = {a | ∃ i j, a = .recordOf [("n", .int i), ("s", .int j)]} ∧
    (∀ k ∈ c.keys, k.Orders S) ∧
    (∀ a ∈ S, ∀ b ∈ S, ∃ o, c.compare a b = .ok o) ∧
    (∀ a ∈ S, ∀ b ∈ S, ∀ d ∈ S, ∀ o, c.compare a b = .ok o → c.compare b d = .ok o →
      c.compare a d = .ok o) ∧
    c.compare (.recordOf [("n", .int 1), ("s", .int 9)])
      (.recordOf [("n", .int 2), ("s", .int 5)]) = .ok .gt ∧
    c.compare (.recordOf [("n", .int 1), ("s", .int 5)])
      (.recordOf [("n", .int 1), ("s", .int 9)]) = .ok .lt := by
  let half (o : Ordering) : Value :=
    .decimal (if o = .lt then ⟨true, 5, 1, by decide, by decide⟩
      else if o = .gt then ⟨false, 5, 1, by decide, by decide⟩ else .zero)
  let numbers (returns : Ty) (answer : Ordering → Value) : StandardOperation :=
    { name := "numbers"
      signature := ⟨[.int, .int], returns⟩
      run := Operation.run <| Builtins.comparison "numbers" Ty.isOrderable returns fun v w =>
        (compareValues v w).map answer
      skipValidate := false
      notes := []
      origin := none }
  let c : Comparator := ⟨[⟨[.field "n"], numbers .decimal half, .desc⟩,
    ⟨[.field "s"], numbers .ordering .ofOrdering, .asc⟩]⟩
  let S : Set Value := {a | ∃ i j, a = .recordOf [("n", .int i), ("s", .int j)]}
  have hn : SortKey.Orders ⟨[.field "n"], numbers .decimal half, .desc⟩ S := by
    refine SortKey.orders_of_ints ?_ fun i j => ⟨half (Ord.compare i.toInt j.toInt), rfl, ?_⟩
    · rintro _ ⟨i, j, rfl⟩
      exact ⟨i, rfl⟩
    · cases Ord.compare i.toInt j.toInt <;> rfl
  have hs : SortKey.Orders ⟨[.field "s"], numbers .ordering .ofOrdering, .asc⟩ S := by
    refine SortKey.orders_of_ints ?_ fun i j => ⟨.ofOrdering (Ord.compare i.toInt j.toInt), rfl, ?_⟩
    · rintro _ ⟨i, j, rfl⟩
      exact ⟨j, rfl⟩
    · cases Ord.compare i.toInt j.toInt <;> rfl
  have hkeys : ∀ k ∈ c.keys, k.Orders S :=
    List.forall_mem_cons.2 ⟨hn, List.forall_mem_singleton.2 hs⟩
  obtain ⟨hsucceeds, -, -, -, htrans⟩ := compare_lexicographic hkeys
  exact ⟨c, S, rfl, hkeys, hsucceeds, htrans, rfl, rfl⟩

end

end Comparator

end RecordRules
