import RecordRules.EvalError
import RecordRules.Resolver
import RecordRules.SortRule

/-!
# Sort rules at work

Records are compared key by key, and the first key that tells them apart decides.  A key that
does not resolve is an error, for without it the order would be another one.
-/

namespace RecordRules

/-- A sort item with its operation. -/
structure SortKey where
  path : Path
  operation : StandardOperation
  direction : Direction

namespace SortKey

/-- A number as an order: its sign. -/
def signOf (name : String) : Value → Except EvalError Ordering
  | .int i => .ok (compare i.toInt 0)
  | .decimal d => .ok d.sign
  | v => .error (.notANumber name v.kindName)

def compare (k : SortKey) (a b : Value) : Except EvalError Ordering :=
  match k.operation.run [a.atPath k.path, b.atPath k.path] with
  | .error cause => .error (.comparator k.operation.name k.path cause)
  | .ok v => (signOf k.operation.name v).map k.direction.apply

end SortKey

/-- The keys of a compiled sort rule; without keys all records tie. -/
structure Comparator where
  keys : List SortKey

namespace Comparator

def identity : Comparator := ⟨[]⟩

def compareBy (a b : Value) : List SortKey → Except EvalError Ordering
  | [] => .ok .eq
  | k :: rest => do
    match ← k.compare a b with
    | .eq => compareBy a b rest
    | o => return o

def compare (c : Comparator) (a b : Value) : Except EvalError Ordering := compareBy a b c.keys

end Comparator

namespace Resolver

def bindItem (r : Resolver) (i : SortItem) : Except EvalError SortKey :=
  match r.resolve i.operation i.path with
  | .ok op => .ok ⟨i.path, op, i.direction⟩
  | .error issue => .error (.unresolved issue)

/-- Fails with the first item that does not resolve. -/
def compileSort (r : Resolver) (rule : SortRule) : Except EvalError Comparator :=
  (rule.mapM r.bindItem).map Comparator.mk

/-- The items from position `i` on that do not resolve. -/
def issuesFrom (r : Resolver) (i : Nat) : SortRule → List (Nat × Issue)
  | [] => []
  | item :: rest =>
    match r.resolve item.operation item.path with
    | .ok _ => issuesFrom r (i + 1) rest
    | .error issue => (i, issue) :: issuesFrom r (i + 1) rest

/-- All items that do not resolve, by position. -/
def validateSort (r : Resolver) (rule : SortRule) : List (Nat × Issue) := r.issuesFrom 0 rule

end Resolver

end RecordRules
