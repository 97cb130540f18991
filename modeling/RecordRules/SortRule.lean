import RecordRules.Json.Members
import RecordRules.Path

/-!
# Sort rules

A sort rule lists keys, the first one the most important.  Each compares the values at a path
with a named operation, upwards or downwards.
-/

namespace RecordRules

inductive Direction where
  | asc
  | desc
deriving DecidableEq

namespace Direction

def name : Direction → String
  | asc => "asc"
  | desc => "desc"

def ofName? : String → Option Direction
  | "asc" => some asc
  | "desc" => some desc
  | _ => none

def ofJson? : Json → Option Direction := Json.choice? .outer ofName?

/-- The order in this direction. -/
def apply : Direction → Ordering → Ordering
  | asc, o => o
  | desc, o => o.swap

end Direction

structure SortItem where
  path : Path
  operation : String
  direction : Direction
deriving DecidableEq

namespace SortItem

def toJson (i : SortItem) : Json :=
  .obj [("direction", .str i.direction.name), ("operationName", .str i.operation),
    ("path", i.path.toJson)]

def ofJson? (j : Json) : Option SortItem := do
  let members ← j.members? ["path", "operationName", "direction"]
  let path ← Json.required? "path" Path.ofJson? members
  let operation ← Json.required? "operationName" Json.asStr? members
  let direction ← Json.optional? "direction" Direction.ofJson? members
  return ⟨path, operation, direction.getD .asc⟩

end SortItem

abbrev SortRule := List SortItem

namespace SortRule

def toJson (r : SortRule) : Json := .arr (r.map SortItem.toJson)

def ofJson? : Json → Option SortRule := Json.asListOf? SortItem.ofJson?

end SortRule

end RecordRules
