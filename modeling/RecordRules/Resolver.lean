import RecordRules.Discovery
import RecordRules.Issue
import RecordRules.Registry
import RecordRules.Ty.Accepts

/-!
# Resolving operations on fields

A resolver knows the operations, the schema of the records and when a type may be passed where
another one is expected.
-/

namespace RecordRules

structure Resolver where
  registry : Registry
  schema : Ty
  /-- `oracle expected actual` -/
  oracle : Ty → Ty → Bool

namespace Resolver

def fieldType (r : Resolver) (path : Path) : Except Issue Ty :=
  match r.schema.atPath? path with
  | some t => .ok t
  | none => .error (.pathNotInSchema path)

/-- The operation itself, or its instance for the field type. -/
def instanceFor (r : Resolver) (op : Operation) (t : Ty) : Except Issue StandardOperation :=
  match op with
  | .standard op => .ok op
  | .generic op =>
    match op.instantiate? r.registry.role t with
    | some found => .ok found
    | none => .error (.notApplicable op.name t)

/-- The first parameter has to accept the field type. -/
def checkFirstParam (r : Resolver) (op : StandardOperation) (t : Ty) : Except Issue Unit :=
  match op.signature.firstParam? with
  | some first => if r.oracle first t then .ok () else .error (.firstParamMismatch op.name first t)
  | none => .error (.notApplicable op.name t)

/-- The operation of this name on the field at a path. -/
def resolve (r : Resolver) (name : String) (path : Path) : Except Issue StandardOperation :=
  match r.registry.get? name with
  | none => .error (.operationNotFound name)
  | some op => do
    let t ← r.fieldType path
    let found ← r.instanceFor op t
    r.checkFirstParam found t
    return found

/-- The first argument, from position `i` on, that its parameter does not admit. -/
def badArgument? (i : Nat) : List Ty → List Value → Option (Nat × Ty × Value)
  | t :: ts, v :: vs => if t.admits v then badArgument? (i + 1) ts vs else some (i, t, v)
  | _, _ => none

/-- Arguments of a rule against the parameters after the first. -/
def checkArguments (op : StandardOperation) (arguments : List Value) : Except Issue Unit :=
  let params := op.signature.restParams
  if op.skipValidate then .ok ()
  else if params.length ≠ arguments.length then
    .error (.arityMismatch op.name params.length arguments.length)
  else
    match badArgument? 0 params arguments with
    | none => .ok ()
    | some (i, t, v) => .error (.argumentType op.name i t v.kindName)

def discover (r : Resolver) (maxDepth : Nat) : List DiscoveredField :=
  discoverFields r.schema r.registry.operations.toList r.registry.role maxDepth r.oracle

end Resolver

end RecordRules
