import RecordRules.KeyMap
import RecordRules.Rule.Basic

/-!
# Rule tables

A table holds the nodes of a rule tree under their ids.  A group lists the ids of its conditions,
and every node names its parent; the root is its own.  Tables that come from elsewhere may have
links of any kind.
-/

namespace RecordRules

inductive TableError where
  /-- A node that is referred to but not there. -/
  | danglingId (id : String)
  | noRoot
  | multipleRoots (ids : List String)
  | rootNotGroup (id : String)
  | notAGroup (id : String)
  | cycle (id : String)
  | unknownId (id : String)
  | duplicateId (id : String)
  | removeRoot (id : String)
deriving DecidableEq

namespace TableError

def message : TableError → String
  | danglingId id => s!"node '{id}' is referenced but not present"
  | noRoot => "no root node (a node that is its own parent)"
  | multipleRoots ids => "more than one root node: " ++ String.intercalate ", " ids
  | rootNotGroup id => s!"root node '{id}' is not a group"
  | notAGroup id => s!"node '{id}' is not a group"
  | cycle id => s!"node '{id}' is its own ancestor"
  | unknownId id => s!"unknown node '{id}'"
  | duplicateId id => s!"duplicate node id '{id}'"
  | removeRoot id => s!"cannot remove root node '{id}'"

end TableError

variable {α : Type}

inductive Entry (α : Type) where
  | filter (data : α) (parent : String)
  | group (id : String) (op : Connective) (invert : Bool) (conditions : List String)
    (parent : String)
deriving BEq

namespace Entry

def parent : Entry α → String
  | filter _ parent => parent
  | group _ _ _ _ parent => parent

def isGroup : Entry α → Bool
  | filter .. => false
  | group .. => true

/-- The ids of the conditions of a group. -/
def conditions : Entry α → List String
  | filter .. => []
  | group _ _ _ conditions _ => conditions

/-- The same group with other conditions. -/
def mapConditions (f : List String → List String) : Entry α → Entry α
  | filter data parent => filter data parent
  | group id op invert conditions parent => group id op invert (f conditions) parent

end Entry

abbrev RuleTable (α : Type) := KeyMap (Entry α)

namespace RuleTable

/-- The node under an id. -/
def node (t : RuleTable α) (id : String) : Except TableError (Entry α) :=
  match t.get? id with
  | some e => .ok e
  | none => .error (.unknownId id)

/-- The nodes that are their own parents, in ascending order. -/
def roots (t : RuleTable α) : List String :=
  (t.entries.filter fun e => e.2.parent = e.1).map (·.1)

def root (t : RuleTable α) : Except TableError String :=
  match t.roots with
  | [] => .error .noRoot
  | [id] => .ok id
  | ids => .error (.multipleRoots ids)

/-- Follow parents upwards for at most `steps` steps. -/
def climb (t : RuleTable α) (start : String) :
    (steps : Nat) → (id : String) → Entry α → Except TableError Nat
  | steps, id, e =>
    if e.parent = id then .ok 0
    else
      match steps with
      | 0 => .error (.cycle start)
      | n + 1 =>
        match t.get? e.parent with
        | some p => (climb t start n e.parent p).map (· + 1)
        | none => .error (.danglingId e.parent)

/-- The number of steps from a node to the root.  As many steps as there are nodes lead either
there or round a cycle. -/
def depth (t : RuleTable α) (id : String) : Except TableError Nat := do
  t.climb id t.size id (← t.node id)

end RuleTable

end RecordRules
