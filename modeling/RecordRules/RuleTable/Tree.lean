import RecordRules.RuleTable.Basic

/-!
# Trees and tables

A tree is entered into a table breadth first, so of the ids that occur twice the one that
reappears first in this order is told.  The tree below a node of a table is built by walking its
conditions depth first.
-/

namespace RecordRules

variable {α : Type}

namespace Rule

/-- A node by itself. -/
def entry [Leaf α] (parent : String) : Rule α → Entry α
  | leaf a => .filter a parent
  | group id op invert conditions => .group id op invert (conditions.map Rule.id) parent

@[simp] theorem parent_entry [Leaf α] (parent : String) (r : Rule α) :
    (r.entry parent).parent = parent := by
  cases r <;> rfl

/-- The entry of a group lists its conditions by their ids. -/
@[simp] theorem conditions_entry [Leaf α] (parent : String) (r : Rule α) :
    (r.entry parent).conditions = r.conditions.map Rule.id := by
  cases r <;> rfl

@[simp] theorem isGroup_entry [Leaf α] (parent : String) (r : Rule α) :
    (r.entry parent).isGroup = r.isGroup := by
  cases r <;> rfl

/-- The conditions of a node, each with the node as its parent. -/
def children [Leaf α] (r : Rule α) : List (String × Rule α) :=
  r.conditions.map fun c => (r.id, c)

end Rule

namespace RuleTable

/-- Enter the nodes of a queue under ids that are still free.  The conditions of each go to the
end of the queue. -/
def enter [Leaf α] (t : RuleTable α) : List (String × Rule α) → Except TableError (RuleTable α)
  | [] => .ok t
  | (parent, r) :: rest =>
    if t.contains r.id then .error (.duplicateId r.id)
    else enter (t.insert r.id (r.entry parent)) (rest ++ r.children)
termination_by queue => (queue.flatMap fun q => q.2.ids).length
decreasing_by
  have hchildren : (r.children.flatMap fun q => q.2.ids) = r.conditions.flatMap Rule.ids :=
    List.flatMap_map ..
  rw [List.flatMap_cons, List.flatMap_append, hchildren, r.ids_eq]
  simp only [List.length_append, List.length_cons]
  omega

/-- The table of a tree whose root has this parent. -/
def ofTreeUnder [Leaf α] (r : Rule α) (parent : String) : Except TableError (RuleTable α) :=
  enter .empty [(parent, r)]

/-- The table of a tree whose root is its own parent. -/
def ofTree [Leaf α] (r : Rule α) : Except TableError (RuleTable α) := ofTreeUnder r r.id

/-- Build conditions one after another, each knowing the ids met before it. -/
def buildList (build : List String → String → Except TableError (Rule α × List String)) :
    List String → List String → Except TableError (List (Rule α) × List String)
  | met, [] => .ok ([], met)
  | met, id :: rest => do
    let (r, met) ← build met id
    let (rs, met) ← buildList build met rest
    return (r :: rs, met)

/-- The tree below a node, and the ids met so far with those of the tree.  No path is longer than
the table is large, so `fuel` does not run out. -/
def build (t : RuleTable α) :
    (fuel : Nat) → List String → String → Except TableError (Rule α × List String)
  | 0, _, id => if t.contains id then .error (.cycle id) else .error (.danglingId id)
  | fuel + 1, met, id =>
    if id ∈ met then .error (.cycle id)
    else
      match t.get? id with
      | none => .error (.danglingId id)
      | some (.filter data _) => .ok (.leaf data, id :: met)
      | some (.group own op invert conditions _) => do
        let (rs, met) ← buildList (build t fuel) (id :: met) conditions
        return (.group own op invert rs, met)

/-- The tree below a node of the table. -/
def treeAt (t : RuleTable α) (id : String) : Except TableError (Rule α) := do
  let _ ← t.node id
  return (← t.build (t.size + 1) [] id).1

/-- The tree below the root, which has to be a group. -/
def toTree (t : RuleTable α) : Except TableError (Rule α) := do
  let id ← t.root
  match t.get? id with
  | some (.group ..) => t.treeAt id
  | _ => .error (.rootNotGroup id)

end RuleTable

end RecordRules
