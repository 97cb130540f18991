import RecordRules.Backend
import RecordRules.Text.Quoted

/-!
# Checks of a backend

A check works on a fresh state of the backend and ends well or with what it found wrong.
-/

namespace RecordRules.Conformance

/-- What a check found wrong. -/
inductive Failure where
  /-- An operation that should have succeeded. -/
  | call (what : String) (cause : StoreError)
  /-- An operation that took the empty key. -/
  | takesEmptyKey (what : String)
  /-- The answers to removing a document twice. -/
  | removals (first second : Bool)
  | unexpectedKeys (keys : List String)
  | keyCount (expected got : Nat)
  /-- There should have been this document. -/
  | lost (key : String)
  /-- There should have been some document. -/
  | absent (key : String)
  /-- Any other answer than the one due. -/
  | unexpected (key : String)

namespace Failure

def message : Failure → String
  | call what cause => s!"{what} failed: {cause.message}"
  | takesEmptyKey what => s!"{what}(\"\") did not return EmptyKey"
  | removals first second =>
    s!"expected remove to return true then false, got {first} then {second}"
  | unexpectedKeys keys =>
    "unexpected keys: [" ++ String.intercalate ", " (keys.map Text.quoted) ++ "]"
  | keyCount expected got => s!"expected {expected} keys, got {got}"
  | lost key => s!"'{key}': expected a document, got none"
  | absent key => s!"no document under '{key}'"
  | unexpected key => s!"'{key}': unexpected answer"

end Failure

abbrev CheckM (σ : Type) := ExceptT Failure (StateM σ)

variable {σ α : Type}

/-- Run an operation that has to succeed. -/
def demand (what : String) (action : StoreM σ α) : CheckM σ α := action.adapt (.call what)

/-- Run an operation for its outcome, whether it succeeds or not. -/
def outcome (action : StoreM σ α) : CheckM σ (Except StoreError α) := ExceptT.lift action.run

inductive Category where
  | basic
  | fidelity
  | keys
  | concurrent
deriving DecidableEq

def Category.name : Category → String
  | basic => "basic"
  | fidelity => "fidelity"
  | keys => "keys"
  | concurrent => "concurrent"

structure Check (σ : Type) where
  category : Category
  name : String
  run : CheckM σ Unit

structure Result where
  category : Category
  name : String
  failure : Option Failure

namespace Result

def passed (r : Result) : Bool := r.failure.isNone

/-- The line of a report about a failure. -/
def line? (r : Result) : Option String :=
  r.failure.map fun f => s!"  FAIL [{r.category.name}/{r.name}]: {f.message}"

end Result

def Check.result (c : Check σ) (fresh : σ) : Result :=
  ⟨c.category, c.name, match (c.run.run fresh).1 with
    | .ok () => none
    | .error f => some f⟩

/-- The results of all checks. -/
structure Report where
  results : List Result

namespace Report

def total (r : Report) : Nat := r.results.length

def passed (r : Report) : Nat := r.results.countP Result.passed

def failed (r : Report) : Nat := r.total - r.passed

/-- The numbers, and a line for each failure. -/
def lines (r : Report) : List String :=
  s!"Conformance: {r.passed}/{r.total} passed ({r.failed} failed)"
    :: r.results.filterMap Result.line?

end Report

end RecordRules.Conformance
