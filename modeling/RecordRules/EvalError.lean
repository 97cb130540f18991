import RecordRules.Issue
import RecordRules.Operation

/-!
# Why a rule has no result on its records
-/

namespace RecordRules

inductive EvalError where
  /-- A rule that has to resolve does not. -/
  | unresolved (issue : Issue)
  /-- The operation of a filter failed on a record. -/
  | operation (name id : String) (cause : OperationError)
  | notABoolean (name id got : String)
  /-- The operation of a sort key failed on two records. -/
  | comparator (name : String) (path : Path) (cause : OperationError)
  | notANumber (name got : String)

namespace EvalError

def message : EvalError → String
  | unresolved issue => issue.message
  | operation name id cause => s!"operation '{name}' failed in rule '{id}': {cause.message}"
  | notABoolean name id got => s!"operation '{name}' in rule '{id}' returned {got}, expected Bool"
  | comparator name path cause =>
    s!"comparator '{name}' failed on '{path.display}': {cause.message}"
  | notANumber name got => s!"comparator '{name}' returned {got}, expected a number"

end EvalError

end RecordRules
