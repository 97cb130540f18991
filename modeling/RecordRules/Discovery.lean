import RecordRules.Levels
import RecordRules.Operation

/-!
# Which fields admit which operations

The fields of a schema are listed from the record itself downwards, level by level and in the
order of declaration.  Only records have fields to descend into.
-/

namespace RecordRules

namespace Ty

mutual

/-- The fields below a path, level by level. -/
def levels (path : Path) : Ty → List (List (Path × Ty))
  | record fields => [(path, record fields)] :: levelsOfFields path fields
  | t => [[(path, t)]]

def levelsOfFields (path : Path) : List (String × Ty) → List (List (Path × Ty))
  | [] => []
  | (n, t) :: rest =>
    Levels.merge (levels (path.child (.field n)) t) (levelsOfFields path rest)

end

/-- All fields at most `maxDepth` steps down, the record itself first. -/
def fieldsUpTo (schema : Ty) (maxDepth : Nat) : List (Path × Ty) :=
  ((schema.levels []).take (maxDepth + 1)).flatten

end Ty

/-- A field and the operations that apply to it, at least one. -/
structure DiscoveredField where
  path : Path
  fieldType : Ty
  operations : List StandardOperation

/-- The entry of a field, unless nothing applies to it. -/
def DiscoveredField.of? (operations : List Operation) (role : Role) (oracle : Ty → Ty → Bool)
    (field : Path × Ty) : Option DiscoveredField :=
  match operations.filterMap (·.forField? role oracle field.2) with
  | [] => none
  | ops => some ⟨field.1, field.2, ops⟩

def discoverFields (schema : Ty) (operations : List Operation) (role : Role) (maxDepth : Nat)
    (oracle : Ty → Ty → Bool) : List DiscoveredField :=
  (schema.fieldsUpTo maxDepth).filterMap (DiscoveredField.of? operations role oracle)

end RecordRules
