import RecordRules.Rule.Json
import RecordRules.RuleTable.Basic

/-!
# Rule tables as JSON

An object with a member for each node: `Filter` with the filter as `data`, or `Group` with the
ids of its conditions, and the parent of either.
-/

namespace RecordRules

variable {α : Type} [LeafJson α]

namespace Entry

def toJson : Entry α → Except ValueError Json
  | filter data parent => return .obj [("kind", .str "Filter"),
      ("data", .obj (← LeafJson.toMembers data)), ("parentId", .str parent)]
  | group id op invert conditions parent => return .obj [("kind", .str "Group"), ("id", .str id),
      ("op", .str op.name), ("invert", .bool invert),
      ("conditionIds", .arr (conditions.map .str)), ("parentId", .str parent)]

def ofFilter? (j : Json) : Option (Entry α) := do
  let members ← j.members? ["data", "parentId"]
  let data ← Json.required? "data" (fun j => (LeafJson.ofJson j).toOption) members
  let parent ← Json.required? "parentId" Json.asStr? members
  return .filter data parent

def ofGroup? (j : Json) : Option (Entry α) := do
  let members ← j.members? ["id", "op", "invert", "conditionIds", "parentId"]
  let id ← Json.required? "id" Json.asStr? members
  let op ← Json.required? "op" Connective.ofPart? members
  let invert ← Json.optional? "invert" Json.asBool? members
  let conditions ← Json.required? "conditionIds" (Json.asListOf? Json.asStr?) members
  let parent ← Json.required? "parentId" Json.asStr? members
  return .group id op (invert.getD false) conditions parent

def ofJson? : Json → Option (Entry α)
  | .obj members =>
    match (Entries.get? "kind" members).bind Json.asStr? with
    | some "Filter" => ofFilter? (.obj members)
    | some "Group" => ofGroup? (.obj members)
    | _ => none
  | .arr (.str "Filter" :: rest) => ofFilter? (.arr rest)
  | .arr (.str "Group" :: rest) => ofGroup? (.arr rest)
  | _ => none

end Entry

namespace RuleTable

def toMember (e : String × Entry α) : Except ValueError (String × Json) := do
  return (e.1, ← e.2.toJson)

def toJson (t : RuleTable α) : Except ValueError Json := (t.entries.mapM toMember).map .obj

def ofMember? (m : String × Json) : Option (String × Entry α) := do
  return (m.1, ← Entry.ofJson? m.2)

def ofJson? : Json → Option (RuleTable α)
  | .obj members => (members.mapM ofMember?).map KeyMap.ofList
  | _ => none

end RuleTable

end RecordRules
