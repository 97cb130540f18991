import RecordRules.Signature

/-!
# Operations

The named functions that rules refer to.  A standard operation has one signature.  A generic
operation has one for each field type to which its guard lets it apply.
-/

namespace RecordRules

/-- What operations are used for. -/
inductive Role where
  /-- Predicates on a field and the arguments of a rule. -/
  | filter
  /-- Comparisons of two fields by the sign of a number. -/
  | sort
deriving DecidableEq

namespace Role

def name : Role → String
  | filter => "filter"
  | sort => "sort"

def ofName? : String → Option Role
  | "filter" => some filter
  | "sort" => some sort
  | _ => none

def ofJson? : Json → Option Role := Json.choice? .outer ofName?

/-- Whether a signature can serve the role. -/
def accepts : Role → Signature → Bool
  | filter, s => s.returns.isBool && !s.params.isEmpty
  | sort, s => s.returns.isNumberLike && s.params.length == 2

end Role

/-- Why an operation has no result. -/
inductive OperationError where
  | failed (reason : String)
  /-- A value that the operation does not take, by the name of its kind. -/
  | badArgument (expected got : String)
deriving DecidableEq

namespace OperationError

def message : OperationError → String
  | failed reason => reason
  | badArgument expected got => s!"expected {expected}, got {got}"

/-- The operation does not take this value. -/
def unexpected (expected : String) (got : Value) : OperationError :=
  badArgument expected got.kindName

end OperationError

/-- What an operation computes from the value of a field and the arguments of a rule, or from
the two values to be compared. -/
abbrev Implementation := List Value → Except OperationError Value

/-- Free notes on an operation. -/
abbrev Notes := List (String × Json)

/-- The generic operation that a standard one was made from, and the type it was made for. -/
structure Origin where
  genericName : String
  fieldType : Ty

structure StandardOperation where
  name : String
  signature : Signature
  run : Implementation
  /-- Arguments of rules are not checked. -/
  skipValidate : Bool
  notes : Notes
  origin : Option Origin

structure GenericOperation where
  name : String
  /-- The field types to which the operation applies. -/
  guard : Ty → Bool
  signatureFor : Ty → Signature
  run : Implementation
  skipValidate : Bool
  notes : Notes

inductive Operation where
  | standard (op : StandardOperation)
  | generic (op : GenericOperation)

namespace Operation

def name : Operation → String
  | standard op => op.name
  | generic op => op.name

def skipValidate : Operation → Bool
  | standard op => op.skipValidate
  | generic op => op.skipValidate

def run : Operation → Implementation
  | standard op => op.run
  | generic op => op.run

def isGeneric : Operation → Bool
  | standard _ => false
  | generic _ => true

end Operation

/-! ## Operations on a field -/

namespace GenericOperation

/-- The operation with its signature for a field type, if the guard lets it apply and the
signature fits the role. -/
def instantiate? (op : GenericOperation) (role : Role) (t : Ty) : Option StandardOperation :=
  if op.guard t && role.accepts (op.signatureFor t) then
    some ⟨op.name, op.signatureFor t, op.run, op.skipValidate, op.notes, some ⟨op.name, t⟩⟩
  else none

end GenericOperation

namespace Operation

/-- The standard operation that an operation is on a field of this type, if it applies:
its signature fits the role, and its first parameter accepts the type. -/
def forField? (op : Operation) (role : Role) (oracle : Ty → Ty → Bool) (t : Ty) :
    Option StandardOperation := do
  let found ← match op with
    | standard op => if role.accepts op.signature then some op else none
    | generic op => op.instantiate? role t
  let first ← found.signature.firstParam?
  if oracle first t then some found else none

end Operation

end RecordRules
