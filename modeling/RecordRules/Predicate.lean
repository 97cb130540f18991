import RecordRules.Config
import RecordRules.EvalError
import RecordRules.Resolver
import RecordRules.Rule.Filter

/-!
# Filters at work

A rule is compiled by resolving the operation of each filter once.  On a record a filter hands
the value at its path and its arguments to the operation; `and` stops at the first condition that
is false, `or` at the first that is true, and a group without conditions is true.  Arguments are
not checked again.
-/

namespace RecordRules

variable {α ε : Type}

namespace Rule

mutual

/-- The result of a rule from those of its filters, which are asked from left to right and only
as far as needed. -/
def eval (test : α → Except ε Bool) : Rule α → Except ε Bool
  | leaf a => test a
  | group _ op invert conditions => do
    let result ← match op, conditions with
      | .and, conditions => evalAll test conditions
      | .or, [] => .ok true
      | .or, conditions => evalAny test conditions
    return result != invert

def evalAll (test : α → Except ε Bool) : List (Rule α) → Except ε Bool
  | [] => .ok true
  | r :: rest => do if ← eval test r then evalAll test rest else return false

def evalAny (test : α → Except ε Bool) : List (Rule α) → Except ε Bool
  | [] => .ok false
  | r :: rest => do if ← eval test r then return true else evalAny test rest

end

end Rule

/-- A filter with its operation. -/
structure BoundFilter where
  id : String
  path : Path
  operation : StandardOperation
  arguments : List Value
  invert : Bool

namespace BoundFilter

/-- The answer of the operation, which has to be a boolean. -/
def answer (f : BoundFilter) (record : Value) : Except EvalError Bool :=
  match f.operation.run (record.atPath f.path :: f.arguments) with
  | .error cause => .error (.operation f.operation.name f.id cause)
  | .ok (.bool b) => .ok b
  | .ok v => .error (.notABoolean f.operation.name f.id v.kindName)

def test (record : Value) (f : BoundFilter) : Except EvalError Bool := do
  return (← f.answer record) != f.invert

end BoundFilter

/-- A compiled rule, or none, which every record passes. -/
structure Predicate where
  rule : Option (Rule BoundFilter)
  config : FilterConfig

namespace Predicate

def always : Predicate := ⟨none, .default⟩

/-- The result on a record without regard to the error policy. -/
def eval (p : Predicate) (record : Value) : Except EvalError Bool :=
  match p.rule with
  | none => .ok true
  | some rule => rule.eval (BoundFilter.test record)

/-- The result on a record; a failure of the whole rule may give way to the fallback. -/
def test (p : Predicate) (record : Value) : Except EvalError Bool :=
  match p.eval record, p.config.onError with
  | .error _, .fallback => .ok p.config.fallback
  | result, _ => result

end Predicate

namespace Resolver

def bind (r : Resolver) (f : Filter) : Except EvalError BoundFilter :=
  match r.resolve f.operation f.path with
  | .ok op => .ok ⟨f.id, f.path, op, f.arguments, f.invert⟩
  | .error issue => .error (.unresolved issue)

/-- Fails with the first filter from the left that does not resolve. -/
def compileFilter (r : Resolver) (rule : Rule Filter) : Except EvalError Predicate :=
  (rule.traverse r.bind).map fun bound => ⟨some bound, .default⟩

end Resolver

end RecordRules
