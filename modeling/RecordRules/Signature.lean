import RecordRules.Json.Members
import RecordRules.Ty.Json

/-!
# Signatures

The types of what an operation takes and gives back.
-/

namespace RecordRules

structure Signature where
  params : List Ty
  returns : Ty

namespace Signature

/-- The parameter that takes the value of the field. -/
def firstParam? (s : Signature) : Option Ty := s.params.head?

/-- The parameters that take the arguments of the rule. -/
def restParams (s : Signature) : List Ty := s.params.tail

def toJson (s : Signature) : Except ValueError Json := do
  return .obj [("params", .arr (← Ty.toJsonList s.params)), ("returns", ← s.returns.toJson)]

def ofJson? (j : Json) : Option Signature := do
  let members ← j.members? ["params", "returns"]
  let params ← Json.required? "params" (Json.asListOf? Ty.ofJson?) members
  let returns ← Json.required? "returns" Ty.ofJson? members
  return ⟨params, returns⟩

end Signature

end RecordRules
