import RecordRules.Operation

/-!
# Registries of operations

The operations that rules of one role may name, in the order of their registration.  Names are
unique, and an index leads from a name to the position of its operation.  Standard operations
are held against the role when they are registered, generic ones when they are instantiated.
-/

namespace RecordRules

inductive RegistryError where
  | duplicateOperation (name : String)
  | noParameters (name : String)
  | unsuitableSignature (name : String) (role : Role)
deriving DecidableEq

namespace RegistryError

def message : RegistryError → String
  | duplicateOperation name => s!"operation '{name}' is already registered"
  | noParameters name => s!"operation '{name}' declares no parameters"
  | unsuitableSignature name role =>
    s!"operation '{name}' has a signature unsuitable for {role.name} use"

end RegistryError

structure Registry where
  role : Role
  operations : Array Operation
  /-- The position of each name. -/
  index : KeyMap Nat

namespace Registry

def empty (role : Role) : Registry := ⟨role, #[], .empty⟩

def contains (r : Registry) (name : String) : Bool := r.index.contains name

def get? (r : Registry) (name : String) : Option Operation :=
  (r.index.get? name).bind (r.operations[·]?)

def size (r : Registry) : Nat := r.operations.size

/-- Why an operation cannot serve the role, whatever else is registered. -/
def unfit? (role : Role) : Operation → Option RegistryError
  | .standard op =>
    if op.signature.params.isEmpty then some (.noParameters op.name)
    else if role.accepts op.signature then none
    else some (.unsuitableSignature op.name role)
  | .generic _ => none

def register (r : Registry) (op : Operation) : Except RegistryError Registry :=
  if r.contains op.name then .error (.duplicateOperation op.name)
  else
    match unfit? r.role op with
    | some e => .error e
    | none => .ok ⟨r.role, r.operations.push op, r.index.insert op.name r.operations.size⟩

/-- Register one operation after another, up to the first that is refused. -/
def ofList (role : Role) (ops : List Operation) : Except RegistryError Registry :=
  ops.foldlM register (empty role)

end Registry

end RecordRules
