import RecordRules.Conformance.Basic

/-!
# What a backend has to do

It gives back each document as it was set, the last one of several; it tells what it has removed;
it lists its keys in ascending order, tells upper from lower case in them and refuses the empty
one; and of many writers none is lost.
-/

namespace RecordRules.Conformance

/-! ## Documents -/

def leaf (id field operation : String) (arguments : List Value) : Rule Draft :=
  .leaf ⟨id, some (Path.fields [field]), some operation, arguments, none⟩

def sampleFilter : Document :=
  .filter (.group "root" .and false
    [leaf "name" "name" "equals" [.text "Alice"], leaf "age" "age" "equals" [.int 19]])

def sampleSort : Document :=
  .sort [⟨Path.fields ["c"], "compare", .asc⟩, ⟨Path.fields ["s"], "compare", .desc⟩]

/-- A filter without an operation, and one with nothing but an id. -/
def incompleteFilter : Document :=
  .filter (.group "root" .or false
    [.leaf { Draft.empty "draft" with path := some (Path.fields ["age"]) },
      .leaf (.empty "blank")])

/-- Arguments that plain JSON does not have. -/
def taggedValues : Document :=
  .filter (.group "root" .and false
    [leaf "price" "price" "greater than" [.decimal ⟨false, 1999, 2, by decide, by decide⟩],
      leaf "born" "born" "less than" [.date ⟨2001, 9, 11, by decide⟩],
      leaf "tags" "tags" "equals" [.list [.null]]])

def nestedInverted : Document :=
  .filter (.group "outer" .and false
    [.group "inner" .or true
      [.leaf ⟨"not-bob", some (Path.fields ["name"]), some "equals", [.text "Bob"], some true⟩]])

/-- The document of the writer number `i`. -/
def written (i : Nat) : Document := .sort [⟨Path.fields [s!"f{i}"], "compare", .asc⟩]

def writers : List Nat := List.range 10

/-- The key of the writer number `i`. -/
def writerKey (i : Nat) : String := s!"view-{i}"

/-! ## Checks -/

variable {σ : Type} (b : Backend σ)

/-- The document under a key. -/
def expectDocument (key : String) (d : Document) : CheckM σ Unit := do
  match ← demand s!"'{key}': get" (b.get key) with
  | none => throw (.lost key)
  | some found => if found == d then return else throw (.unexpected key)

/-- No document under a key, and no failure to look. -/
def expectNothing (key : String) : CheckM σ Unit := do
  match ← outcome (b.get key) with
  | .ok none => return
  | _ => throw (.unexpected key)

/-- What is set can be got. -/
def survives (key : String) (d : Document) : CheckM σ Unit := do
  demand "set" (b.set key d)
  expectDocument b key d

def getMissing : CheckM σ Unit := do
  match ← demand "get" (b.get "nothing-here") with
  | none => return
  | some _ => throw (.unexpected "nothing-here")

def setOverwrites : CheckM σ Unit := do
  demand "first set" (b.set "view" sampleFilter)
  demand "second set" (b.set "view" sampleSort)
  expectDocument b "view" sampleSort

def removeReports : CheckM σ Unit := do
  demand "set" (b.set "gone" sampleFilter)
  let first ← demand "remove" (b.remove "gone")
  let second ← demand "second remove" (b.remove "gone")
  if !first || second then throw (.removals first second)
  expectNothing b "gone"

def keysAscend : CheckM σ Unit := do
  for key in ["orders", "accounts", "people"] do
    demand s!"set '{key}'" (b.set key sampleSort)
  let keys ← demand "keys" b.keys
  if keys ≠ ["accounts", "orders", "people"] then throw (.unexpectedKeys keys)

/-- An operation on the empty key, which has to be refused for that. -/
def refuseEmptyKey {α : Type} (what : String) (action : StoreM σ α) : CheckM σ Unit := do
  match ← outcome action with
  | .error .emptyKey => return
  | _ => throw (.takesEmptyKey what)

def emptyKeyRejected : CheckM σ Unit := do
  refuseEmptyKey "get" (b.get "")
  refuseEmptyKey "set" (b.set "" sampleFilter)
  refuseEmptyKey "remove" (b.remove "")

def caseMatters : CheckM σ Unit := do
  demand "set" (b.set "People" sampleFilter)
  expectNothing b "people"

def manyKeys : CheckM σ Unit := do
  for i in writers do
    demand "set" (b.set (writerKey i) (written i))
  let keys ← demand "keys" b.keys
  if keys.length ≠ writers.length then throw (.keyCount writers.length keys.length)
  for i in writers do
    match ← outcome (b.get (writerKey i)) with
    | .ok (some found) => if found != written i then throw (.unexpected (writerKey i))
    | _ => throw (.unexpected (writerKey i))

def oneKey : CheckM σ Unit := do
  for i in writers do
    demand "set" (b.set "shared" (written i))
  match ← demand "get" (b.get "shared") with
  | none => throw (.absent "shared")
  | some found => if !writers.any (found == written ·) then throw (.unexpected "shared")

def checks : List (Check σ) :=
  [ ⟨.basic, "get_missing_returns_none", getMissing b⟩,
    ⟨.basic, "set_then_get_returns_document", survives b "people" sampleFilter⟩,
    ⟨.basic, "set_overwrites_previous_document", setOverwrites b⟩,
    ⟨.basic, "remove_reports_existence", removeReports b⟩,
    ⟨.basic, "keys_are_sorted", keysAscend b⟩,
    ⟨.fidelity, "incomplete_filter_survives", survives b "draft" incompleteFilter⟩,
    ⟨.fidelity, "tagged_values_survive", survives b "typed" taggedValues⟩,
    ⟨.fidelity, "nested_inverted_groups_survive", survives b "nested" nestedInverted⟩,
    ⟨.fidelity, "sort_directions_survive", survives b "order" sampleSort⟩,
    ⟨.keys, "empty_key_is_rejected", emptyKeyRejected b⟩,
    ⟨.keys, "keys_are_case_sensitive", caseMatters b⟩,
    ⟨.concurrent, "concurrent_writers_to_distinct_keys", manyKeys b⟩,
    ⟨.concurrent, "concurrent_writers_to_one_key_leave_one_document", oneKey b⟩ ]

/-- Run all checks, each on a fresh state. -/
def report : Report := ⟨(checks b).map (·.result b.fresh)⟩

end RecordRules.Conformance
