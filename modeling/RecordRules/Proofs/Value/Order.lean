import RecordRules.Proofs.Decimal.Worth
import RecordRules.Value.Order

/-!
# Values that compare

Two values compare if they are of one kind, where all numbers are of one kind.  With `null` every
value compares.  How two values compare is told by the order of their kind (`Value.Compares`), and
numbers go by what they are worth, so the order of values has the laws of those orders.
-/

namespace RecordRules

instance : Std.TransOrd Date :=
  inferInstanceAs (Std.TransCmp (compareLex (compareOn Date.year)
    (compareLex (compareOn Date.month) (compareOn Date.day))))

instance : Std.TransOrd DateTime := inferInstanceAs (Std.TransCmp (compareOn DateTime.instant))

namespace Value

/-- The kinds of values that have an order. -/
inductive Kind where
  | bool
  | number
  | text
  | date
  | dateTime
deriving DecidableEq

def kind? : Value → Option Kind
  | bool _ => some .bool
  | int _ | decimal _ => some .number
  | text _ => some .text
  | date _ => some .date
  | dateTime _ => some .dateTime
  | null | list _ | record _ => none

/-- Neither a list nor a record. -/
def isScalar : Value → Bool
  | list _ => false
  | record _ => false
  | _ => true

/-- Every scalar but `null` has a kind. -/
theorem exists_kind_of_isScalar {v : Value} (h : v.isScalar = true) (hnull : v ≠ null) :
    ∃ k, v.kind? = some k := by
  cases v with
  | null => exact absurd rfl hnull
  | list | record => cases h
  | _ => exact ⟨_, rfl⟩

/-! ## How values compare -/

/-- The number that a value stands for. -/
def worth? : Value → Option ℚ
  | int i => some i.toInt
  | decimal d => some d.worth
  | _ => none

/-- How two values compare: `null` comes first, numbers go by what they are worth, and the other
values by the order of their kind. -/
inductive Compares : Value → Value → Ordering → Prop where
  | nulls : Compares null null .eq
  | nullFirst {w : Value} : w ≠ null → Compares null w .lt
  | nullLast {v : Value} : v ≠ null → Compares v null .gt
  | bools (a b : Bool) : Compares (bool a) (bool b) (compare a b)
  | numbers {v w : Value} {x y : ℚ} : v.worth? = some x → w.worth? = some y →
      Compares v w (compare x y)
  | texts (a b : String) : Compares (text a) (text b) (compare a b)
  | dates (a b : Date) : Compares (date a) (date b) (compare a b)
  | dateTimes (a b : DateTime) : Compares (dateTime a) (dateTime b) (compare a b)

/-- Integers compare as the rational numbers they are. -/
theorem compare_intCast (a b : Int) : compare (a : ℚ) (b : ℚ) = compare a b := by
  simp only [LinearOrder.compare_eq_compareOfLessAndEq, compareOfLessAndEq, Int.cast_lt,
    Int.cast_inj]

/-- Numbers of any two kinds are compared by what they are worth. -/
theorem cmp?_of_worth? {v w : Value} {x y : ℚ} (hv : v.worth? = some x)
    (hw : w.worth? = some y) : v.cmp? w = some (compare x y) := by
  cases v with
  | int a =>
    obtain rfl := Option.some.inj hv
    cases w with
    | int b =>
      obtain rfl := Option.some.inj hw
      rw [cmp?, compare_intCast]
    | decimal d =>
      obtain rfl := Option.some.inj hw
      rw [cmp?, ← Decimal.worth_ofInt64, ← Decimal.cmp_eq]
      rfl
    | _ => cases hw
  | decimal d =>
    obtain rfl := Option.some.inj hv
    cases w with
    | int b =>
      obtain rfl := Option.some.inj hw
      rw [cmp?, ← Decimal.worth_ofInt64, ← Decimal.cmp_eq]
      rfl
    | decimal e =>
      obtain rfl := Option.some.inj hw
      rw [cmp?, ← Decimal.cmp_eq]
      rfl
    | _ => cases hw
  | _ => cases hv

/-- The comparison gives what the relation says. -/
theorem cmp?_of_compares {v w : Value} {o : Ordering} (h : v.Compares w o) :
    v.cmp? w = some o := by
  cases h with
  | nulls => rfl
  | nullFirst hw => cases w <;> first | rfl | exact absurd rfl hw
  | nullLast hv => cases v <;> first | rfl | exact absurd rfl hv
  | numbers hv hw => exact cmp?_of_worth? hv hw
  | bools | texts | dates | dateTimes => rfl

/-- Two values of one kind always compare. -/
theorem exists_compares_of_kind {k : Kind} {v w : Value} (hv : v.kind? = some k)
    (hw : w.kind? = some k) : ∃ o, v.Compares w o := by
  cases v with
  | null | list items | record fields => cases hv
  | bool a =>
    cases hv
    cases w with
    | bool b => exact ⟨_, .bools a b⟩
    | _ => cases hw
  | int _ | decimal _ =>
    cases hv
    cases w with
    | int _ | decimal _ => exact ⟨_, .numbers rfl rfl⟩
    | _ => cases hw
  | text a =>
    cases hv
    cases w with
    | text b => exact ⟨_, .texts a b⟩
    | _ => cases hw
  | date a =>
    cases hv
    cases w with
    | date b => exact ⟨_, .dates a b⟩
    | _ => cases hw
  | dateTime a =>
    cases hv
    cases w with
    | dateTime b => exact ⟨_, .dateTimes a b⟩
    | _ => cases hw

/-- The order of two values is the other way round when they are swapped. -/
theorem Compares.swap {v w : Value} {o : Ordering} (h : v.Compares w o) :
    w.Compares v o.swap := by
  cases h with
  | nulls => exact .nulls
  | nullFirst hw => exact .nullLast hw
  | nullLast hv => exact .nullFirst hv
  | bools a b => rw [← Std.OrientedCmp.eq_swap]; exact .bools b a
  | numbers hv hw => rw [← Std.OrientedCmp.eq_swap]; exact .numbers hw hv
  | texts a b => rw [← Std.OrientedCmp.eq_swap]; exact .texts b a
  | dates a b => rw [← Std.OrientedCmp.eq_swap]; exact .dates b a
  | dateTimes a b => rw [← Std.OrientedCmp.eq_swap]; exact .dateTimes b a

/-- `null` compares with everything. -/
theorem exists_null_compares (w : Value) : ∃ o, null.Compares w o := by
  by_cases hw : w = null
  · subst hw
    exact ⟨_, .nulls⟩
  · exact ⟨_, .nullFirst hw⟩

/-- Values compare when one of them is `null` or both are of one kind. -/
theorem exists_compares {v w : Value}
    (h : v = .null ∨ w = .null ∨ ∃ k, v.kind? = some k ∧ w.kind? = some k) :
    ∃ o, v.Compares w o := by
  rcases h with rfl | rfl | ⟨k, hv, hw⟩
  · exact exists_null_compares w
  · obtain ⟨o, ho⟩ := exists_null_compares v
    exact ⟨_, ho.swap⟩
  · exact exists_compares_of_kind hv hw

/-- Two values compare exactly if one of them is `null` or both are of one kind. -/
theorem exists_cmp?_iff {v w : Value} :
    (∃ o, v.cmp? w = some o) ↔
      v = .null ∨ w = .null ∨ ∃ k, v.kind? = some k ∧ w.kind? = some k := by
  constructor
  · rintro ⟨o, ho⟩
    cases v <;> cases w <;> simp_all [cmp?, kind?]
  · intro h
    obtain ⟨o, ho⟩ := exists_compares h
    exact ⟨o, cmp?_of_compares ho⟩

/-- The relation gives exactly what the comparison does. -/
theorem cmp?_eq_some_iff {v w : Value} {o : Ordering} : v.cmp? w = some o ↔ v.Compares w o := by
  refine ⟨fun h => ?_, cmp?_of_compares⟩
  obtain ⟨o', ho'⟩ := exists_compares (exists_cmp?_iff.1 ⟨o, h⟩)
  rwa [Option.some.inj (h.symm.trans (cmp?_of_compares ho'))]

/-- Up the order and up again is up: the values are of one kind, or the first one is `null`. -/
theorem Compares.trans {u v w : Value} {o p : Ordering} (huv : u.Compares v o)
    (ho : o.isLE = true) (hvw : v.Compares w p) (hp : p.isLE = true) :
    ∃ q, u.Compares w q ∧ q.isLE = true := by
  cases huv with
  | nulls => exact ⟨p, hvw, hp⟩
  | nullFirst hv =>
    by_cases hw : w = null
    · subst hw
      exact ⟨_, .nulls, rfl⟩
    · exact ⟨_, .nullFirst hw, rfl⟩
  | nullLast => cases ho
  -- a value of a kind only goes up to values of its kind: nothing goes up to `null`
  | bools a b =>
    cases hvw with
    | bools _ c => exact ⟨_, .bools a c, Std.TransCmp.isLE_trans ho hp⟩
    | nullLast => cases hp
    | numbers hv => cases hv
  | numbers hu hv =>
    cases hvw with
    | numbers hv' hw =>
      obtain rfl := Option.some.inj (hv.symm.trans hv')
      exact ⟨_, .numbers hu hw, Std.TransCmp.isLE_trans ho hp⟩
    | nullLast => cases hp
    | _ => cases hv
  | texts a b =>
    cases hvw with
    | texts _ c => exact ⟨_, .texts a c, Std.TransCmp.isLE_trans ho hp⟩
    | nullLast => cases hp
    | numbers hv => cases hv
  | dates a b =>
    cases hvw with
    | dates _ c => exact ⟨_, .dates a c, Std.TransCmp.isLE_trans ho hp⟩
    | nullLast => cases hp
    | numbers hv => cases hv
  | dateTimes a b =>
    cases hvw with
    | dateTimes _ c => exact ⟨_, .dateTimes a c, Std.TransCmp.isLE_trans ho hp⟩
    | nullLast => cases hp
    | numbers hv => cases hv

end Value

end RecordRules
