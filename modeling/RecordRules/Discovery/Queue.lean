import RecordRules.Discovery

/-!
# Discovery with a queue

The listing of `RecordRules.Discovery` as it goes on field by field.  Fields that are known but have
not been looked at wait in a queue, each with its depth.  A round takes the first of them, and the
fields below it go to the end of the queue unless they lie too deep.

It is not taken for granted that the queue runs empty: a search that uses up its rounds before has
no result.
-/

namespace RecordRules.FieldQueue

/-- A field that waits for its round. -/
structure Waiting where
  path : Path
  fieldType : Ty
  depth : Nat

/-- The fields one step below, in the order of declaration. -/
def Waiting.below (maxDepth : Nat) (w : Waiting) : List Waiting :=
  if w.depth < maxDepth then
    match w.fieldType.fields? with
    | some fields => fields.map fun f => ⟨w.path.child (.field f.1), f.2, w.depth + 1⟩
    | none => []
  else []

section

variable (operations : List Operation) (role : Role) (maxDepth : Nat) (oracle : Ty → Ty → Bool)

/-- What is found when the queue runs empty within so many rounds; `found` is what was found
before. -/
def search : Nat → List Waiting → List DiscoveredField → Option (List DiscoveredField)
  | _, [], found => some found
  | 0, _ :: _, _ => none
  | rounds + 1, w :: queue, found =>
    search rounds (queue ++ w.below maxDepth)
      (found ++ (DiscoveredField.of? operations role oracle (w.path, w.fieldType)).toList)

/-- A search that starts with the record itself. -/
def discover (schema : Ty) (rounds : Nat) : Option (List DiscoveredField) :=
  search operations role maxDepth oracle rounds [⟨[], schema, 0⟩] []

end

end RecordRules.FieldQueue
