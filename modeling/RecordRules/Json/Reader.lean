import RecordRules.Json.Token

/-!
# Reading JSON

Tokens are fed one by one to a stack of open arrays and objects.  At most 127 of them may be
open at a time.  Of two members with one key the later one counts.
-/

namespace RecordRules.Json

/-- An open array or object with what it holds so far. -/
inductive Frame where
  /-- Items in reverse. -/
  | array (items : List Json)
  /-- Members in ascending key order, and the key whose value is to come. -/
  | object (members : List (String × Json)) (key : String)

inductive State where
  | value (open_ : List Frame)
  /-- Just inside a new array. -/
  | firstItem (open_ : List Frame)
  /-- Just inside a new object. -/
  | firstKey (open_ : List Frame)
  | nextKey (members : List (String × Json)) (open_ : List Frame)
  | colon (members : List (String × Json)) (key : String) (open_ : List Frame)
  | afterItem (items : List Json) (open_ : List Frame)
  | afterMember (members : List (String × Json)) (open_ : List Frame)
  | done (j : Json)

def maxOpen : Nat := 127

/-- Hand a complete value to the innermost open array or object. -/
def deliver (j : Json) : List Frame → State
  | [] => .done j
  | .array items :: rest => .afterItem (j :: items) rest
  | .object members key :: rest => .afterMember (Entries.insert key j members) rest

/-- The start of a value. -/
def start (fs : List Frame) : Token → Option State
  | .scalar j => some (deliver j fs)
  | .arrayOpen => if fs.length < maxOpen then some (.firstItem fs) else none
  | .objectOpen => if fs.length < maxOpen then some (.firstKey fs) else none
  | _ => none

def step : State → Token → Option State
  | .value fs, t => start fs t
  | .firstItem fs, .arrayClose => some (deliver (.arr []) fs)
  | .firstItem fs, t => start (.array [] :: fs) t
  | .firstKey fs, .objectClose => some (deliver (.obj []) fs)
  | .firstKey fs, .scalar (.str key) => some (.colon [] key fs)
  | .nextKey members fs, .scalar (.str key) => some (.colon members key fs)
  | .colon members key fs, .colon => some (.value (.object members key :: fs))
  | .afterItem items fs, .comma => some (.value (.array items :: fs))
  | .afterItem items fs, .arrayClose => some (deliver (.arr items.reverse) fs)
  | .afterMember members fs, .comma => some (.nextKey members fs)
  | .afterMember members fs, .objectClose => some (deliver (.obj members) fs)
  | _, _ => none

def State.result? : State → Option Json
  | .done j => some j
  | _ => none

def ofTokens? (ts : List Token) : Option Json :=
  (ts.foldlM step (.value [])).bind State.result?

/-- The one value that a text holds. -/
def parse? (text : String) : Option Json := (tokens? text.toList).bind ofTokens?

end RecordRules.Json
