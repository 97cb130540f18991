import RecordRules.Document

/-!
# A store of rule documents

Documents are kept as texts under keys that are not empty, and are read again when somebody asks
for them.
-/

namespace RecordRules

inductive StoreError where
  | emptyKey
  /-- A document that cannot be written, or a text that is no document. -/
  | codec (key : String) (cause : DocumentError)
  /-- What lies behind the store failed. -/
  | backend (reason : String)
deriving DecidableEq

namespace StoreError

def message : StoreError → String
  | emptyKey => "storage key must not be empty"
  | codec key cause => s!"rule document under '{key}' is unreadable: {cause.message}"
  | backend reason => s!"storage backend error: {reason}"

end StoreError

structure Store where
  texts : KeyMap String

namespace Store

def empty : Store := ⟨.empty⟩

def size (s : Store) : Nat := s.texts.size

def isEmpty (s : Store) : Bool := s.texts.isEmpty

/-- The keys in use, ascending. -/
def keys (s : Store) : List String := s.texts.keys

def checkKey (key : String) : Except StoreError Unit :=
  if key.isEmpty then .error .emptyKey else .ok ()

def get (s : Store) (key : String) : Except StoreError (Option Document) := do
  checkKey key
  match s.texts.get? key with
  | none => return none
  | some text => ((Document.ofText text).map some).mapError (.codec key)

/-- Keep a document, in place of the one before it. -/
def set (s : Store) (key : String) (d : Document) : Except StoreError Store := do
  checkKey key
  let text ← d.text.mapError (.codec key)
  return ⟨s.texts.insert key text⟩

/-- Drop a document; also tells whether there was one. -/
def remove (s : Store) (key : String) : Except StoreError (Bool × Store) := do
  checkKey key
  return (s.texts.contains key, ⟨s.texts.erase key⟩)

end Store

end RecordRules
