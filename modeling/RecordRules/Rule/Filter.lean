import RecordRules.Registry
import RecordRules.Rule.Basic

/-!
# Single filters

A draft is a filter as somebody proposes it: its path, its operation and its arguments may be
missing or wrong.  A filter proper names all its parts.
-/

namespace RecordRules

structure Filter where
  id : String
  path : Path
  operation : String
  arguments : List Value
  invert : Bool
deriving BEq

structure Draft where
  id : String
  path : Option Path
  operation : Option String
  arguments : List Value
  invert : Option Bool
deriving BEq

namespace Filter

def new (id : String) (path : Path) (operation : String) (arguments : List Value) : Filter :=
  ⟨id, path, operation, arguments, false⟩

def inverted (f : Filter) : Filter := { f with invert := !f.invert }

instance : Leaf Filter where
  id := Filter.id
  setInvert invert f := { f with invert }
  id_setInvert _ _ := rfl

/-- The draft that proposes this filter. -/
def toDraft (f : Filter) : Draft :=
  ⟨f.id, some f.path, some f.operation, f.arguments, some f.invert⟩

end Filter

/-- What a draft lacks. -/
inductive Missing where
  | path
  | operation
  | arguments (expected got : Nat)
deriving DecidableEq

/-- How far a draft has come. -/
inductive Readiness where
  | incomplete (missing : List Missing)
  | ready
deriving DecidableEq

namespace Readiness

def ofMissing : List Missing → Readiness
  | [] => ready
  | missing => incomplete missing

def isReady : Readiness → Bool
  | ready => true
  | incomplete _ => false

end Readiness

namespace Draft

instance : Leaf Draft where
  id := Draft.id
  setInvert invert f := { f with invert := some invert }
  id_setInvert _ _ := rfl

def empty (id : String) : Draft := ⟨id, none, none, [], none⟩

/-- Point the draft at another field.  Arguments for the old one no longer fit. -/
def setPath (path : Path) (f : Draft) : Draft := { f with path := some path, arguments := [] }

/-- Choose another operation.  Arguments for the old one no longer fit. -/
def setOperation (operation : String) (f : Draft) : Draft :=
  { f with operation := some operation, arguments := [] }

def setArguments (arguments : List Value) (f : Draft) : Draft := { f with arguments }

/-- The parts without which a filter is nothing. -/
def missingParts (f : Draft) : List Missing :=
  (if f.path.isNone then [.path] else []) ++ (if f.operation.isNone then [.operation] else [])

/-- Too few arguments for a standard operation.  A generic one knows its parameters only for a
field type. -/
def missingArguments (f : Draft) (r : Registry) : List Missing :=
  match f.operation.bind r.get? with
  | some (.standard op) =>
    let expected := op.signature.restParams.length
    if !op.skipValidate && f.arguments.length < expected then
      [.arguments expected f.arguments.length]
    else []
  | _ => []

/-- Everything that the draft lacks, as far as the registry tells. -/
def missing (f : Draft) (r : Registry) : List Missing := f.missingParts ++ f.missingArguments r

/-- How far the draft has come by itself. -/
def state (f : Draft) : Readiness := .ofMissing f.missingParts

/-- How far the draft has come as far as the registry tells. -/
def readiness (f : Draft) (r : Registry) : Readiness := .ofMissing (f.missing r)

end Draft

namespace Rule

/-- The drafts that propose the filters of a rule. -/
def toDraft (r : Rule Filter) : Rule Draft := r.map Filter.toDraft

end Rule

end RecordRules
