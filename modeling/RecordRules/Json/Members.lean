import RecordRules.Json.Basic

/-!
# Records written as JSON

A record with known fields is an object with these members, or the array of its members in
order, in which the last ones may be left out.  A record of several forms says by a name which of
them it has.
-/

namespace RecordRules.Json

/-- The members of a record; an object may have others as well. -/
def members? (names : List String) : Json → Option (List (String × Json))
  | .obj members => some members
  | .arr items => if items.length ≤ names.length then some (names.zip items) else none
  | _ => none

/-- The members of a record that may have no others. -/
def closedMembers? (names : List String) (j : Json) : Option (List (String × Json)) :=
  (j.members? names).filter fun members => members.all fun m => names.contains m.1

/-- Where JSON stands: by itself, or among the parts of a record of several forms. -/
inductive Place where
  | outer
  | inner
deriving DecidableEq

/-- The name of a form.  Among the parts of a record of several forms its position in `names`
stands for it too. -/
def form? (place : Place) (names : List String) : Json → Option String
  | .str name => if name ∈ names then some name else none
  | .int n => if place = .inner ∧ 0 ≤ n then names[n.toNat]? else none
  | _ => none

/-- One of several names, or an object with this name as its only key and nothing under it.  Among
the parts of a record of several forms an empty object is nothing too. -/
def choice? {α : Type} (place : Place) (ofName? : String → Option α) : Json → Option α
  | .str name => ofName? name
  | .obj [(name, .null)] => ofName? name
  | .obj [(name, .obj [])] => if place = .inner then ofName? name else none
  | _ => none

/-- A member that may be left out. -/
def optional? {α : Type} (key : String) (read : Json → Option α)
    (members : List (String × Json)) : Option (Option α) :=
  match Entries.get? key members with
  | some j => (read j).map some
  | none => some none

/-- A member that has to be there. -/
def required? {α : Type} (key : String) (read : Json → Option α)
    (members : List (String × Json)) : Option α :=
  (Entries.get? key members).bind read

/-- `null` stands for nothing. -/
def nullable? {α : Type} (read : Json → Option α) : Json → Option (Option α)
  | .null => some none
  | j => (read j).map some

end RecordRules.Json
