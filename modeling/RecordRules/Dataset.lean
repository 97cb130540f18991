import RecordRules.Comparator
import RecordRules.Predicate
import RecordRules.StableOrder

/-!
# Filtering and sorting lists of records
-/

namespace RecordRules

namespace Predicate

/-- The records that pass, in their order.  The first failure ends it. -/
def select (p : Predicate) : List Value → Except EvalError (List Value)
  | [] => .ok []
  | record :: rest => do
    if ← p.test record then return record :: (← p.select rest) else p.select rest

end Predicate

namespace Comparator

/-- The records in a stable order.  Without keys they stay as they are. -/
def sort (c : Comparator) (records : List Value) : Except EvalError (List Value) :=
  match c.keys with
  | [] => .ok records
  | _ =>
    let nth (i : Nat) : Value := records.getD i .null
    (StableOrder.order records.length fun i j => c.compare (nth i) (nth j)).map (·.map nth)

end Comparator

namespace Resolver

/-- The records that a rule accepts, all of them if there is none. -/
def filterData (r : Resolver) (rule : Option (Rule Filter)) (config : FilterConfig)
    (records : List Value) : Except EvalError (List Value) :=
  match rule with
  | none => Predicate.always.select records
  | some rule => do
    let p ← r.compileFilter rule
    { p with config }.select records

def sortData (r : Resolver) (rule : SortRule) (records : List Value) :
    Except EvalError (List Value) := do
  let c ← r.compileSort rule
  c.sort records

end Resolver

end RecordRules
