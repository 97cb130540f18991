import RecordRules.Json.Reader
import RecordRules.Json.Printer
import RecordRules.Rule.Json
import RecordRules.SortRule

/-!
# Rule documents

A rule as it is kept: with the version of the format and the kind of the rule.  Filter rules are
kept as drafts, so unfinished ones can be kept too.  A document can be written whatever its version
is, but only the current one is read, and what is read may not use an id twice.
-/

namespace RecordRules

/-- What a document holds. -/
inductive Document.Body where
  | filter (rule : Rule Draft)
  | sort (rule : SortRule)
deriving BEq

/-- A rule with the version of the format in which it is kept. -/
structure Document where
  version : UInt32
  body : Document.Body
deriving BEq

inductive DocumentError where
  | missingField (field : String)
  | unsupportedVersion (found : Nat)
  | unknownKind (kind : String)
  | invalidRule (kind : String) (cause : DecodeError)
  | duplicateId (id : String)
  /-- The text is not JSON, or a value in the document has no text. -/
  | json
deriving DecidableEq

namespace Document

/-- The version of the format that new documents get, the only one so far. -/
def currentVersion : UInt32 := 1

end Document

namespace DocumentError

def message : DocumentError → String
  | missingField field => s!"document missing required field: '{field}'"
  | unsupportedVersion found =>
    s!"unsupported document version {found} (this build reads up to {Document.currentVersion})"
  | unknownKind kind => s!"unknown document kind '{kind}'"
  | invalidRule kind (.value e) => s!"invalid {kind} rule: {e.message}"
  | invalidRule kind .shape => s!"invalid {kind} rule: unexpected shape"
  | duplicateId id => s!"duplicate node id '{id}' in filter tree"
  | json => "invalid document JSON"

end DocumentError

/-! ## Ids that occur twice -/

namespace Rule

variable {α : Type} [Leaf α]

mutual

/-- The ids of all nodes, each group before its conditions and the last condition first. -/
def idsFromRight : Rule α → List String
  | leaf a => [Leaf.id a]
  | group id _ _ conditions => id :: idsFromRightOf conditions

def idsFromRightOf : List (Rule α) → List String
  | [] => []
  | r :: rest => idsFromRightOf rest ++ idsFromRight r

end

/-- The first element that occurs before. -/
def firstRepeated? (seen : List String) : List String → Option String
  | [] => none
  | id :: rest => if id ∈ seen then some id else firstRepeated? (id :: seen) rest

/-- An id that two nodes share. -/
def repeatedId? (r : Rule α) : Option String := firstRepeated? [] r.idsFromRight

end Rule

namespace Document

def filter (rule : Rule Draft) : Document := ⟨currentVersion, .filter rule⟩

def sort (rule : SortRule) : Document := ⟨currentVersion, .sort rule⟩

/-- The document of a rule of filters keeps it as drafts. -/
def ofFilters (rule : Rule Filter) : Document := filter rule.toDraft

/-! ## Bodies -/

namespace Body

def kind : Body → String
  | filter _ => "filter"
  | sort _ => "sort"

def asFilter? : Body → Option (Rule Draft)
  | filter rule => some rule
  | sort _ => none

def asSort? : Body → Option SortRule
  | filter _ => none
  | sort rule => some rule

def toJson : Body → Except DocumentError Json
  | filter rule => rule.toJson.mapError fun _ => .json
  | sort rule => .ok rule.toJson

end Body

def kind (d : Document) : String := d.body.kind

def asFilter? (d : Document) : Option (Rule Draft) := d.body.asFilter?

def asSort? (d : Document) : Option SortRule := d.body.asSort?

/-! ## Writing -/

/-- The members of a document, around the JSON of its rule. -/
def members (d : Document) (rule : Json) : List (String × Json) :=
  [("kind", .str d.kind), ("rule", rule), ("version", .ofNat d.version.toNat)]

def toJson (d : Document) : Except DocumentError Json := do
  let rule ← d.body.toJson
  return .obj (d.members rule)

/-- Compact JSON text. -/
def text (d : Document) : Except DocumentError String := d.toJson.map Json.compact

/-! ## Reading -/

def readFilter (j : Json) : Except DocumentError Document :=
  match Rule.ofJson j with
  | .error cause => .error (.invalidRule "filter" cause)
  | .ok rule =>
    match rule.repeatedId? with
    | some id => .error (.duplicateId id)
    | none => .ok (filter rule)

def readSort (j : Json) : Except DocumentError Document :=
  match SortRule.ofJson? j with
  | some rule => .ok (sort rule)
  | none => .error (.invalidRule "sort" .shape)

/-- A member that has to be there. -/
def field {α : Type} (j : Json) (name : String) (read : Json → Option α) :
    Except DocumentError α :=
  match (j.get? name).bind read with
  | some a => .ok a
  | none => .error (.missingField name)

def ofJson (j : Json) : Except DocumentError Document := do
  let found ← field j "version" Json.asNat?
  if found = 0 ∨ currentVersion.toNat < found then .error (.unsupportedVersion found)
  else
    let kind ← field j "kind" Json.asStr?
    let rule ← field j "rule" some
    match kind with
    | "filter" => readFilter rule
    | "sort" => readSort rule
    | kind => .error (.unknownKind kind)

def ofText (s : String) : Except DocumentError Document :=
  match Json.parse? s with
  | some j => ofJson j
  | none => .error .json

end Document

end RecordRules
