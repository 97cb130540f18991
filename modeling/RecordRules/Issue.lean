import RecordRules.Ty.Basic

/-!
# Why a rule does not resolve
-/

namespace RecordRules

inductive Issue where
  | missingPath (id : String)
  | missingOperation (id : String)
  | operationNotFound (name : String)
  | pathNotInSchema (path : Path)
  /-- The guard of a generic operation refuses the field type, or its signature does not fit. -/
  | notApplicable (operation : String) (fieldType : Ty)
  | firstParamMismatch (operation : String) (expected actual : Ty)
  | arityMismatch (operation : String) (expected got : Nat)
  | argumentType (operation : String) (index : Nat) (expected : Ty) (got : String)
  | emptyGroup (id : String)

namespace Issue

def message : Issue → String
  | missingPath id => s!"filter '{id}' has no path"
  | missingOperation id => s!"filter '{id}' has no operation"
  | operationNotFound name => s!"operation '{name}' is not registered"
  | pathNotInSchema path => s!"path '{path.display}' does not exist in the schema"
  | notApplicable operation t => s!"operation '{operation}' does not apply to {t.display}"
  | firstParamMismatch operation expected actual =>
    s!"operation '{operation}' expects {expected.display} but the field is {actual.display}"
  | arityMismatch operation expected got =>
    s!"operation '{operation}' takes {expected} argument(s), got {got}"
  | argumentType operation index expected got =>
    s!"argument {index} of '{operation}' must be {expected.display}, got {got}"
  | emptyGroup id => s!"group '{id}' has no valid conditions"

end Issue

end RecordRules
