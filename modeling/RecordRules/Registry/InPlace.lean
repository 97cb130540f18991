import RecordRules.Registry

/-!
# Registering in place

Registering as it changes a registry that others go on with.  The checks come one after the other
and stop at the first that fails, and then the index and the list of operations change one after the
other.  A refusal takes back nothing, so it is the order of these steps that leaves a registry alone
when an operation is refused.
-/

namespace RecordRules.Registry.InPlace

/-- What changes a registry or refuses. -/
abbrev Registering : Type → Type := EStateM RegistryError Registry

/-- A name is registered once. -/
def checkName (name : String) : Registering Unit := do
  if (← get).contains name then throw (.duplicateOperation name)

/-- A standard operation has parameters and suits the role; a generic one is not checked. -/
def checkSignature : Operation → Registering Unit
  | .standard op => do
    if op.signature.params.isEmpty then throw (.noParameters op.name)
    let role := (← get).role
    if !role.accepts op.signature then throw (.unsuitableSignature op.name role)
  | .generic _ => return

def register (op : Operation) : Registering Unit := do
  checkName op.name
  checkSignature op
  modify fun r => { r with index := r.index.insert op.name r.operations.size }
  modify fun r => { r with operations := r.operations.push op }

end RecordRules.Registry.InPlace
