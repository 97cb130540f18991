import RecordRules.Store

/-!
# Backends

Whatever keeps documents under keys: a state and four operations on it.  An operation may fail,
and it may change the state even so.
-/

namespace RecordRules

/-- An operation of a backend with state `σ`. -/
abbrev StoreM (σ : Type) := ExceptT StoreError (StateM σ)

structure Backend (σ : Type) where
  /-- The state in which nothing is kept. -/
  fresh : σ
  get : String → StoreM σ (Option Document)
  set : String → Document → StoreM σ Unit
  remove : String → StoreM σ Bool
  keys : StoreM σ (List String)

namespace Backend

/-- The store in memory.  An operation that fails leaves it as it is. -/
def inMemory : Backend Store where
  fresh := .empty
  get key := fun s => (s.get key, s)
  set key d := fun s =>
    match s.set key d with
    | .ok s => (.ok (), s)
    | .error e => (.error e, s)
  remove key := fun s =>
    match s.remove key with
    | .ok (found, s) => (.ok found, s)
    | .error e => (.error e, s)
  keys := fun s => (.ok s.keys, s)

end Backend

end RecordRules
