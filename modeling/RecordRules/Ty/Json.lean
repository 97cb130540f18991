import RecordRules.Json.Members
import RecordRules.Ty.Basic
import RecordRules.Value.Json

/-!
# Types as JSON

An object whose `kind` names the form of the type, with the parts of that form beside it.  As
everywhere, a record may also be written as the array of its members in order.  The types among the
parts of a type may give the position of their kind instead of its name.
-/

namespace RecordRules.Ty

/-- The types without parts, by the name of their kind. -/
def ofKind? : String → Option Ty
  | "any" => some any
  | "null" => some null
  | "bool" => some bool
  | "int" => some int
  | "decimal" => some decimal
  | "text" => some text
  | "date" => some date
  | "date_time" => some dateTime
  | _ => none

/-- The names of the kinds, in order. -/
def kinds : List String :=
  ["any", "null", "bool", "int", "decimal", "text", "date", "date_time", "literal", "union",
    "list", "tuple", "record"]

def kind : Ty → String
  | any => "any"
  | null => "null"
  | bool => "bool"
  | int => "int"
  | decimal => "decimal"
  | text => "text"
  | date => "date"
  | dateTime => "date_time"
  | literal _ => "literal"
  | union _ => "union"
  | list _ => "list"
  | tuple _ => "tuple"
  | record _ => "record"

/-- An object of a kind with further members. -/
def ofMembers (kind : String) (members : List (String × Json)) : Json :=
  .obj (("kind", .str kind) :: members)

mutual

def toJson : Ty → Except ValueError Json
  | literal v => return ofMembers "literal" [("value", ← v.toJson)]
  | union members => return ofMembers "union" [("members", .arr (← toJsonList members))]
  | list element => return ofMembers "list" [("element", ← toJson element)]
  | tuple items => return ofMembers "tuple" [("items", .arr (← toJsonList items))]
  | record fields => return ofMembers "record" [("fields", .arr (← toJsonFields fields))]
  | t => return ofMembers t.kind []

def toJsonList : List Ty → Except ValueError (List Json)
  | [] => return []
  | t :: rest => return (← toJson t) :: (← toJsonList rest)

def toJsonFields : List (String × Ty) → Except ValueError (List Json)
  | [] => return []
  | (n, t) :: rest =>
    return .obj [("name", .str n), ("type", ← toJson t)] :: (← toJsonFields rest)

end

def literalOf? (j : Json) : Option Ty := (Value.ofJson j).toOption.map literal

mutual

/-- The type that JSON at this place stands for. -/
def ofJsonAt? (place : Json.Place) : Json → Option Ty
  | .obj members =>
    match (Entries.get? "kind" members).bind (Json.form? place kinds) with
    | some "literal" => (Entries.get? "value" members).bind literalOf?
    | some "union" => (listAt? "members" members).map union
    | some "list" => (typeAt? "element" members).map list
    | some "tuple" => (listAt? "items" members).map tuple
    | some "record" => (fieldsAt? "fields" members).map record
    | some kind => ofKind? kind
    | none => none
  | .arr (kind :: parts) => (Json.form? place kinds kind).bind fun kind => ofParts? kind parts
  | _ => none

/-- The type of a kind with these parts. -/
def ofParts? (kind : String) : List Json → Option Ty
  | [] => ofKind? kind
  | [part] =>
    match kind, part with
    | "literal", v => literalOf? v
    | "union", .arr members => (ofItems? members).map union
    | "list", element => (ofJsonAt? .inner element).map list
    | "tuple", .arr items => (ofItems? items).map tuple
    | "record", .arr fields => (ofFields? fields).map record
    | _, _ => none
  | _ => none

/-- The type that a member holds. -/
def typeAt? (key : String) : List (String × Json) → Option Ty
  | [] => none
  | (k, j) :: rest => if k = key then ofJsonAt? .inner j else typeAt? key rest

/-- The types that a member lists. -/
def listAt? (key : String) : List (String × Json) → Option (List Ty)
  | [] => none
  | (k, j) :: rest =>
    if k = key then
      match j with
      | .arr items => ofItems? items
      | _ => none
    else listAt? key rest

/-- The declarations that a member lists. -/
def fieldsAt? (key : String) : List (String × Json) → Option (List (String × Ty))
  | [] => none
  | (k, j) :: rest =>
    if k = key then
      match j with
      | .arr items => ofFields? items
      | _ => none
    else fieldsAt? key rest

def ofItems? : List Json → Option (List Ty)
  | [] => some []
  | j :: rest => do return (← ofJsonAt? .inner j) :: (← ofItems? rest)

def ofFields? : List Json → Option (List (String × Ty))
  | [] => some []
  | j :: rest => do return (← ofField? j) :: (← ofFields? rest)

/-- One declaration. -/
def ofField? : Json → Option (String × Ty)
  | .obj members => do
    return (← (Entries.get? "name" members).bind Json.asStr?, ← typeAt? "type" members)
  | .arr [.str name, j] => (ofJsonAt? .inner j).map fun t => (name, t)
  | _ => none

end

/-- The type that JSON stands for by itself. -/
def ofJson? (j : Json) : Option Ty := ofJsonAt? .outer j

end RecordRules.Ty
