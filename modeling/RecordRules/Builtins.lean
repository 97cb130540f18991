import RecordRules.Registry
import RecordRules.Value.Order

/-!
# Ready-made operations

Numbers compare by value, `null` comes before everything, and values of different kinds do not
compare.
-/

namespace RecordRules

/-- The order of two values, which have to be of one kind. -/
def compareValues (left right : Value) : Except OperationError Ordering :=
  match left.cmp? right with
  | some o => .ok o
  | none => .error (.failed s!"cannot compare {left.kindName} with {right.kindName}")

namespace Ty

mutual

/-- Types without parts, literals, and unions of them. -/
def isScalar : Ty → Bool
  | null | bool | int | decimal | text | date | dateTime | literal _ => true
  | union members => !members.isEmpty && allScalar members
  | _ => false

def allScalar : List Ty → Bool
  | [] => true
  | t :: rest => isScalar t && allScalar rest

end

mutual

/-- Types with a natural order, with or without `null`. -/
def isOrderable : Ty → Bool
  | int | decimal | text | date | dateTime => true
  | literal (.list _) | literal (.record _) => false
  | literal _ => true
  | union members => members.any (!·.isNull) && allOrderable members
  | _ => false

/-- All members but `null`. -/
def allOrderable : List Ty → Bool
  | [] => true
  | t :: rest => (t.isNull || isOrderable t) && allOrderable rest

end

end Ty

/-- Whether `needle` is a run of characters in the list. -/
def containsRun (needle : List Char) : List Char → Bool
  | [] => needle.isEmpty
  | c :: rest => needle.isPrefixOf (c :: rest) || containsRun needle rest

namespace Builtins

/-- A generic operation on two values of the field type. -/
def comparison (name : String) (guard : Ty → Bool) (returns : Ty)
    (run : Value → Value → Except OperationError Value) : Operation :=
  .generic
    { name
      guard
      signatureFor := fun t => ⟨[t, t], returns⟩
      run := fun
        | [left, right] => run left right
        | _ => .error (.failed s!"{name} takes two values")
      skipValidate := false
      notes := [] }

/-- The field is the same as the argument; what does not compare is not the same. -/
def equals : Operation :=
  comparison "equals" Ty.isScalar .bool fun left right =>
    .ok (.bool (left.cmp? right == some .eq))

/-- The field comes after the argument. -/
def greaterThan : Operation :=
  comparison "greater than" Ty.isOrderable .bool fun left right => do
    return .bool ((← compareValues left right) == .gt)

/-- The field comes before the argument. -/
def lessThan : Operation :=
  comparison "less than" Ty.isOrderable .bool fun left right => do
    return .bool ((← compareValues left right) == .lt)

/-- The text of the argument occurs in the text of the field. -/
def contains : Operation :=
  .standard
    { name := "contains"
      signature := ⟨[.text, .text], .bool⟩
      run := fun
        | [.text haystack, .text needle] =>
          .ok (.bool (containsRun needle.toList haystack.toList))
        | [.text _, other] => .error (.unexpected "Text" other)
        | [other, _] => .error (.unexpected "Text" other)
        | _ => .error (.failed "contains takes two values")
      skipValidate := false
      notes := []
      origin := none }

/-- `null`, empty text or an empty list. -/
def isEmpty : Operation :=
  .standard
    { name := "is empty"
      signature := ⟨[.any], .bool⟩
      run := fun
        | [] | .null :: _ => .ok (.bool true)
        | .text s :: _ => .ok (.bool s.isEmpty)
        | .list items :: _ => .ok (.bool items.isEmpty)
        | _ => .ok (.bool false)
      skipValidate := false
      notes := []
      origin := none }

/-- The natural order as `-1`, `0` or `1`. -/
def compare : Operation :=
  comparison "compare" Ty.isOrderable .ordering fun left right => do
    return .ofOrdering (← compareValues left right)

def filters : List Operation := [equals, greaterThan, lessThan, contains, isEmpty]

def sorts : List Operation := [compare]

end Builtins

namespace Registry

/-- The ready-made predicates. -/
def builtinFilters : Except RegistryError Registry := ofList .filter Builtins.filters

/-- The ready-made comparison. -/
def builtinSorts : Except RegistryError Registry := ofList .sort Builtins.sorts

end Registry

end RecordRules
