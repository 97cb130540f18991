import RecordRules.Json.Members
import RecordRules.Json.Printer
import RecordRules.Rule.Filter
import RecordRules.Value.Json

/-!
# Rules as JSON

A rule is an object whose `type` is `Filter` or `FilterGroup`.  A draft leaves out the parts that
it lacks, but for its arguments; a filter has all its parts.  A group says `invert` only when
it is inverted.  Members stand in ascending order of their keys, except in the text that is shown
for a rule.

Of several faults the first one counts, in the order in which the members stand.
-/

namespace RecordRules

/-- Why JSON is no rule: a value in it cannot be read, or it has another shape. -/
inductive DecodeError where
  | value (e : ValueError)
  | shape
deriving DecidableEq

namespace DecodeError

def orShape {α : Type} : Option α → Except DecodeError α
  | some a => .ok a
  | none => .error .shape

end DecodeError

/-- Filters that can be written and read. -/
class LeafJson (α : Type) where
  /-- The members of the object, in ascending order. -/
  toMembers : α → Except ValueError (List (String × Json))
  /-- The filter with these arguments and otherwise these members. -/
  ofMembers? : List Value → List (String × Json) → Option α

namespace Connective

def name : Connective → String
  | and => "and"
  | or => "or"

def ofName? : String → Option Connective
  | "and" => some and
  | "or" => some or
  | _ => none

def ofJson? : Json → Option Connective := Json.choice? .outer ofName?

/-- The connective among the parts of a rule or of a table. -/
def ofPart? : Json → Option Connective := Json.choice? .inner ofName?

end Connective

/-! ## Single filters -/

/-- The arguments of a filter; none if they are not given. -/
def readArguments (members : List (String × Json)) : Except DecodeError (List Value) :=
  match Entries.get? "arguments" members with
  | none => .ok []
  | some (.arr items) => (Value.ofItems items).mapError .value
  | some _ => .error .shape

/-- The fields of a filter in the order in which they are shown. -/
def leafFields : List String := ["id", "path", "operationName", "arguments", "invert"]

namespace LeafJson

/-- In an object the arguments come first, in an array the three fields before them. -/
def ofJson {α : Type} [LeafJson α] : Json → Except DecodeError α
  | .obj members => do
    let arguments ← readArguments members
    DecodeError.orShape (ofMembers? arguments members)
  | .arr items => do
    let members := leafFields.zip items
    let _ : α ← DecodeError.orShape (ofMembers? [] (members.take 3))
    let arguments ← readArguments members
    DecodeError.orShape <|
      if leafFields.length < items.length then none else ofMembers? arguments members
  | _ => .error .shape

end LeafJson

namespace Filter

def toMembers (f : Filter) : Except ValueError (List (String × Json)) := do
  return [("arguments", .arr (← Value.toJsonItems f.arguments)), ("id", .str f.id),
    ("invert", .bool f.invert), ("operationName", .str f.operation), ("path", f.path.toJson)]

def ofMembers? (arguments : List Value) (members : List (String × Json)) : Option Filter := do
  let id ← Json.required? "id" Json.asStr? members
  let path ← Json.required? "path" Path.ofJson? members
  let operation ← Json.required? "operationName" Json.asStr? members
  let invert ← Json.optional? "invert" Json.asBool? members
  return ⟨id, path, operation, arguments, invert.getD false⟩

instance : LeafJson Filter := ⟨toMembers, ofMembers?⟩

end Filter

namespace Draft

def toMembers (f : Draft) : Except ValueError (List (String × Json)) := do
  let arguments ← Value.toJsonItems f.arguments
  return [("arguments", .arr arguments), ("id", .str f.id)]
    ++ (f.invert.map fun b => ("invert", .bool b)).toList
    ++ (f.operation.map fun name => ("operationName", .str name)).toList
    ++ (f.path.map fun p => ("path", p.toJson)).toList

def ofMembers? (arguments : List Value) (members : List (String × Json)) : Option Draft := do
  let id ← Json.required? "id" Json.asStr? members
  let path ← Json.optional? "path" (Json.nullable? Path.ofJson?) members
  let operation ← Json.optional? "operationName" (Json.nullable? Json.asStr?) members
  let invert ← Json.optional? "invert" (Json.nullable? Json.asBool?) members
  return ⟨id, path.join, operation.join, arguments, invert.join⟩

instance : LeafJson Draft := ⟨toMembers, ofMembers?⟩

end Draft

/-! ## Trees -/

namespace Rule

variable {α : Type} [LeafJson α]

def typeKey : String := "type"

def leafType : String := "Filter"

def groupType : String := "FilterGroup"

def types : List String := [leafType, groupType]

mutual

def toJson : Rule α → Except ValueError Json
  | leaf a => do return .obj ((← LeafJson.toMembers a) ++ [(typeKey, .str leafType)])
  | group id op invert conditions => do
    return .obj ([("conditions", .arr (← toJsonList conditions)), ("id", .str id)]
      ++ (if invert then [("invert", .bool true)] else [])
      ++ [("op", .str op.name), (typeKey, .str groupType)])

def toJsonList : List (Rule α) → Except ValueError (List Json)
  | [] => return []
  | r :: rest => return (← toJson r) :: (← toJsonList rest)

end

/-- The members with these keys, in the order of the keys. -/
def arrange (keys : List String) (members : List (String × Json)) : List (String × Json) :=
  keys.filterMap fun k => (Entries.get? k members).map fun j => (k, j)

mutual

/-- A rule in the order in which it is shown, its type first. -/
def toShownJson : Rule α → Except ValueError Json
  | leaf a => do
    return .obj ((typeKey, .str leafType) :: arrange leafFields (← LeafJson.toMembers a))
  | group id op invert conditions => do
    return .obj ([(typeKey, .str groupType), ("id", .str id), ("op", .str op.name),
      ("conditions", .arr (← toShownJsonList conditions))]
      ++ if invert then [("invert", .bool true)] else [])

def toShownJsonList : List (Rule α) → Except ValueError (List Json)
  | [] => return []
  | r :: rest => return (← toShownJson r) :: (← toShownJsonList rest)

end

/-- Compact JSON text of a rule as it is shown. -/
def text (r : Rule α) : Except ValueError String := r.toShownJson.map Json.compact

/-- The parts of a group but for its conditions. -/
def ofHeader? (members : List (String × Json)) : Option (String × Connective × Bool) := do
  let id ← Json.required? "id" Json.asStr? members
  let op ← Json.required? "op" Connective.ofPart? members
  let invert ← Json.optional? "invert" Json.asBool? members
  return (id, op, invert.getD false)

def ofParts (members : List (String × Json)) (conditions : List (Rule α)) :
    Except DecodeError (Rule α) :=
  (DecodeError.orShape (ofHeader? members)).map fun (id, op, invert) =>
    group id op invert conditions

mutual

/-- The rule that JSON at this place stands for. -/
def ofJsonAt (place : Json.Place) : Json → Except DecodeError (Rule α)
  | .obj members =>
    match (Entries.get? typeKey members).bind (Json.form? place types) with
    | some "Filter" => (LeafJson.ofJson (.obj members)).map leaf
    | some "FilterGroup" => do ofParts members (← conditionsIn members)
    | _ => .error .shape
  | .arr (type :: items) =>
    match Json.form? place types type with
    | some "Filter" => (LeafJson.ofJson (.arr items)).map leaf
    | some "FilterGroup" => ofItems items
    | _ => .error .shape
  | _ => .error .shape

/-- A group whose members are listed in order. -/
def ofItems : List Json → Except DecodeError (Rule α)
  | id :: op :: .arr conditions :: rest => do
    let members := [("id", id), ("op", op)]
    let _ ← DecodeError.orShape (ofHeader? members)
    let conditions ← ofJsonList conditions
    match rest with
    | [] => ofParts members conditions
    | [invert] => ofParts (members ++ [("invert", invert)]) conditions
    | _ => .error .shape
  | _ => .error .shape

/-- The conditions among the members of a group. -/
def conditionsIn : List (String × Json) → Except DecodeError (List (Rule α))
  | [] => .error .shape
  | (k, j) :: rest =>
    if k = "conditions" then
      match j with
      | .arr items => ofJsonList items
      | _ => .error .shape
    else conditionsIn rest

def ofJsonList : List Json → Except DecodeError (List (Rule α))
  | [] => .ok []
  | j :: rest => do return (← ofJsonAt .inner j) :: (← ofJsonList rest)

end

/-- The rule that JSON stands for by itself. -/
def ofJson (j : Json) : Except DecodeError (Rule α) := ofJsonAt .outer j

end Rule

end RecordRules
