import RecordRules.Json.Members

/-!
# Members that are read back

What is found under a key when members are put one after another, some of them only where there is
something to write, what the readers of single members make of it, and when the keys ascend.
-/

namespace RecordRules

variable {α β : Type}

namespace Entries

/-- A search looks at the first member, and further on when its key is another one. -/
theorem get?_cons (k l : String) (v : α) (es : List (String × α)) :
    get? k ((l, v) :: es) = if l = k then some v else get? k es := rfl

/-- Of two lists of members one after the other, the first is searched first. -/
theorem get?_append (k : String) (es fs : List (String × α)) :
    get? k (es ++ fs) = (get? k es).or (get? k fs) := by
  induction es with
  | nil => rfl
  | cons e es ih =>
    rw [List.cons_append, get?, get?, ih]
    split <;> rfl

/-- An entry that is there if its subject is. -/
theorem get?_toList_map (k l : String) (f : α → β) (o : Option α) :
    get? k (o.map fun a => (l, f a)).toList = if l = k then o.map f else none := by
  cases o with
  | none => simp [get?]
  | some a => rfl

/-! ## Ascending keys -/

/-- Keys ascend when every one of them is below all that come after it. -/
theorem ascending_iff {es : List (String × α)} :
    Ascending es ↔ (es.map Prod.fst).Pairwise (· < ·) :=
  List.pairwise_map.symm

/-- Members whose keys are some of these stand in their order. -/
theorem ascending_of_sublist {keys : List String} {es : List (String × α)}
    (hkeys : keys.Pairwise (· < ·)) (h : (es.map Prod.fst).Sublist keys) : Ascending es :=
  ascending_iff.2 (hkeys.sublist h)

/-- A member that may be left out has its own key or none. -/
theorem sublist_toList_map (k : String) (f : α → β) (o : Option α) :
    ((o.map fun a => (k, f a)).toList.map Prod.fst).Sublist [k] := by
  cases o <;> simp

/-- A key above all others is inserted at the end, which is how a writer in key order builds its
members. -/
theorem insert_eq_append {k : String} {v : α} {es : List (String × α)}
    (h : ∀ e ∈ es, e.1 < k) : insert k v es = es ++ [(k, v)] := by
  induction es with
  | nil => rfl
  | cons e es ih =>
    obtain ⟨he, hes⟩ := List.forall_mem_cons.1 h
    have hne : k ≠ e.1 := fun heq => String.lt_irrefl k (by rwa [← heq] at he)
    rw [insert, if_neg (String.lt_asymm he), if_neg hne, ih hes, List.cons_append]

end Entries

/-! ## Readers of members -/

@[simp] theorem join_map_some (o : Option α) : (o.map some).join = o := by
  cases o <;> rfl

namespace Json

variable {key : String} {write : α → Json} {members : List (String × Json)}

/-- A list that was written element by element is read element by element. -/
theorem asListOf?_map {read : Json → Option α} {l : List α} (h : ∀ a ∈ l, read (write a) = some a) :
    asListOf? read (.arr (l.map write)) = some l := by
  rw [asListOf?]
  induction l with
  | nil => rfl
  | cons a l ih =>
    obtain ⟨ha, hl⟩ := List.forall_mem_cons.1 h
    simp [ha, ih hl]

/-- A part that may be missing is read back, and is missing where it was not written. -/
theorem optional?_nullable? (read : Json → Option α) {o : Option α}
    (hget : Entries.get? key members = o.map write)
    (h : ∀ a ∈ o, nullable? read (write a) = some (some a)) :
    optional? key (nullable? read) members = some (o.map some) := by
  unfold optional?
  cases o with
  | none => rw [hget]; rfl
  | some a =>
    rw [hget, Option.map_some]
    simp [h a rfl]

end Json

end RecordRules
