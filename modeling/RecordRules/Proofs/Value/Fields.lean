import RecordRules.Value.Basic

/-!
# Fields of records

Fields stand in ascending order by their type (`Fields.ascending_toList`), so they are determined by
the list of their names and values (`Fields.toList_injective`).  A list in any order makes fields
with the same look-ups (`Fields.get?_ofList`), and a list in order makes the fields that it lists
(`Fields.toList_ofList`).
-/

namespace RecordRules

/-- A key below all others is inserted in front. -/
theorem Entries.insert_eq_cons {α : Type} {k : String} {v : α} {es : List (String × α)}
    (h : ∀ e ∈ es, k < e.1) : insert k v es = (k, v) :: es := by
  cases es with
  | nil => rfl
  | cons e rest => exact if_pos (h e (.head _))

namespace Value.Fields

/-- Induction over fields alone, without their values. -/
@[elab_as_elim, induction_eliminator]
theorem induct {motive : {last : Option String} → Fields last → Prop}
    (nil : ∀ {last}, motive (nil : Fields last))
    (cons : ∀ {last : Option String} (name : String) (after : last < some name) (value : Value)
      (rest : Fields (some name)), motive rest → motive (cons name after value rest))
    {last : Option String} (fields : Fields last) : motive fields :=
  match fields with
  | .nil => nil
  | .cons name after value rest => cons name after value rest (induct nil cons rest)

/-! ## Order -/

/-- All names come after the bound. -/
theorem lt_of_mem_toList {last : Option String} {fields : Fields last} {x : String × Value}
    (h : x ∈ fields.toList) : last < some x.1 := by
  induction fields with
  | nil => cases h
  | @cons last name after value rest ih =>
    rw [toList] at h
    rcases List.mem_cons.1 h with rfl | h
    · exact after
    · have hname := Option.some_lt_some.1 (ih h)
      cases last with
      | none => exact Option.none_lt_some
      | some m => exact Option.some_lt_some.2 (String.lt_trans (Option.some_lt_some.1 after) hname)

/-- The names of a record ascend, by what its type says. -/
theorem ascending_toList {last : Option String} (fields : Fields last) :
    Entries.Ascending fields.toList := by
  induction fields with
  | nil => exact .nil
  | cons name after value rest ih =>
    exact .cons (fun x hx => Option.some_lt_some.1 (lt_of_mem_toList hx)) ih

/-- Fields with the same names and values are the same. -/
theorem toList_injective {last : Option String} {as bs : Fields last}
    (h : as.toList = bs.toList) : as = bs := by
  induction as with
  | nil =>
    cases bs with
    | nil => rfl
    | cons => cases h
  | cons name after value rest ih =>
    cases bs with
    | nil => cases h
    | cons name' after' value' rest' =>
      obtain ⟨hfirst, hrest⟩ := List.cons.inj h
      obtain ⟨rfl, rfl⟩ := Prod.mk.inj hfirst
      rw [ih hrest]

/-! ## Fields from a list -/

/-- A field is inserted where the insertion into the list puts it. -/
theorem toList_insert {last : Option String} (fields : Fields last) {name : String} {value : Value}
    (h : last < some name) :
    (fields.insert name value h).toList = Entries.insert name value fields.toList := by
  induction fields with
  | nil => rfl
  | cons n hn v rest ih =>
    rw [insert, toList, Entries.insert]
    split
    · rfl
    · split
      · next heq =>
        subst heq
        rfl
      · rw [toList, ih]

/-- The first of several fields with one name counts, as it does in the list. -/
theorem get?_ofList (es : List (String × Value)) (name : String) :
    Entries.get? name (ofList es).toList = Entries.get? name es := by
  induction es with
  | nil => rfl
  | cons e rest ih => rw [ofList, toList_insert, Entries.get?_insert, ih, Entries.get?]

/-- A record built from a list has no fields but those listed. -/
theorem mem_of_mem_ofList {es : List (String × Value)} {x : String × Value}
    (h : x ∈ (ofList es).toList) : x ∈ es := by
  have hget := (ascending_toList _).get?_of_mem h
  rw [get?_ofList] at hget
  exact Entries.mem_of_get? hget

/-- Nothing is lost of a list in order. -/
theorem toList_ofList {es : List (String × Value)} (h : Entries.Ascending es) :
    (ofList es).toList = es := by
  induction es with
  | nil => rfl
  | cons e rest ih =>
    obtain ⟨hfirst, hrest⟩ := List.pairwise_cons.1 h
    rw [ofList, toList_insert, ih hrest, Entries.insert_eq_cons hfirst]

/-- A record is rebuilt from the list of its fields. -/
theorem ofList_toList (fields : Fields none) : ofList fields.toList = fields :=
  toList_injective (toList_ofList fields.ascending_toList)

end Value.Fields

end RecordRules
