import RecordRules.Binary64.Shortest
import RecordRules.KeyMap

/-!
# JSON values

An object is a list of members.  The reader lists them in ascending key order with no key twice.
-/

namespace RecordRules

inductive Json where
  | null
  | bool (b : Bool)
  /-- A whole number that fits 64 bits, with or without sign. -/
  | int (n : Int)
  | float (x : Binary64)
  | str (s : String)
  | arr (items : List Json)
  | obj (members : List (String × Json))
deriving Inhabited

namespace Json

/-- The member of an object. -/
def get? (j : Json) (key : String) : Option Json :=
  match j with
  | .obj members => Entries.get? key members
  | _ => none

def asStr? : Json → Option String
  | .str s => some s
  | _ => none

def asBool? : Json → Option Bool
  | .bool b => some b
  | _ => none

def asArr? : Json → Option (List Json)
  | .arr items => some items
  | _ => none

def asObj? : Json → Option (List (String × Json))
  | .obj members => some members
  | _ => none

/-- An array whose items are all of one kind. -/
def asListOf? {α : Type} (read : Json → Option α) : Json → Option (List α)
  | .arr items => items.mapM read
  | _ => none

/-- An unsigned 64-bit number. -/
def asNat? : Json → Option Nat
  | .int n => if 0 ≤ n ∧ n < UInt64.size then some n.toNat else none
  | _ => none

def ofNat (n : Nat) : Json := .int n

/-- A value or `null`. -/
def ofOption {α : Type} (f : α → Json) : Option α → Json
  | some a => f a
  | none => .null

end Json

end RecordRules
