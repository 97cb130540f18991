import RecordRules.Json.Printer
import RecordRules.Value.Basic

/-!
# Values as JSON

`null`, booleans, 64-bit whole numbers, text, lists and records are plain JSON.  Decimals, dates
and points in time are objects whose `__type` names the kind and whose `value` is the text.  An
object whose `__type` is not a string is a record like any other.  Every other number is read as
the decimal that its text says.
-/

namespace RecordRules

inductive ValueError where
  | unknownTag (tag : String)
  /-- A tagged object without a `value` that is a string. -/
  | missingPayload (tag : String)
  /-- A `value` that is no text of the tagged kind. -/
  | badPayload (tag : String)
  /-- A number that no decimal holds, by its text. -/
  | number (text : String)
  /-- A value without a text. -/
  | unwritable (tag : String)
deriving DecidableEq

namespace ValueError

def message : ValueError → String
  | unknownTag tag => s!"unknown value tag '{tag}'"
  | missingPayload tag => s!"malformed {tag} value: missing string 'value'"
  | badPayload tag => s!"malformed {tag} value: unreadable text"
  | number text => s!"unrepresentable number {text}"
  | unwritable tag => s!"cannot format {tag} value: component out of range"

end ValueError

namespace Value

/-- The member that names the kind of a tagged value. -/
def tagKey : String := "__type"

def payloadKey : String := "value"

def tagged (tag payload : String) : Json :=
  .obj [(tagKey, .str tag), (payloadKey, .str payload)]

/-! ## Writing -/

mutual

def toJson : Value → Except ValueError Json
  | null => .ok .null
  | bool b => .ok (.bool b)
  | int i => .ok (.int i.toInt)
  | decimal d => .ok (tagged "Decimal" d.text)
  | text s => .ok (.str s)
  | date d => .ok (tagged "Date" d.text)
  | dateTime t =>
    match t.rfc3339? with
    | some s => .ok (tagged "DateTime" s)
    | none => .error (.unwritable "DateTime")
  | list items => (toJsonItems items).map .arr
  | record fields => (toJsonFields fields).map .obj

def toJsonItems : List Value → Except ValueError (List Json)
  | [] => .ok []
  | v :: rest => do return (← toJson v) :: (← toJsonItems rest)

def toJsonFields : {last : Option String} → Fields last →
    Except ValueError (List (String × Json))
  | _, .nil => .ok []
  | _, .cons n _ v rest => do return (n, ← toJson v) :: (← toJsonFields rest)

end

/-! ## Reading -/

/-- The tag of an object, if it has one. -/
def tag? (members : List (String × Json)) : Option String :=
  (Entries.get? tagKey members).bind Json.asStr?

def ofPayload (tag payload : String) : Except ValueError Value :=
  let read {α : Type} (f : α → Value) (a : Option α) : Except ValueError Value :=
    match a with
    | some a => .ok (f a)
    | none => .error (.badPayload tag)
  match tag with
  | "Decimal" => read .decimal (Decimal.ofText? payload)
  | "Date" => read .date (Date.ofText? payload)
  | "DateTime" => read .dateTime (DateTime.ofText? payload)
  | tag => .error (.unknownTag tag)

def ofTagged (tag : String) (members : List (String × Json)) : Except ValueError Value :=
  match (Entries.get? payloadKey members).bind Json.asStr? with
  | some payload => ofPayload tag payload
  | none => .error (.missingPayload tag)

def ofNumber (text : String) : Except ValueError Value :=
  match Decimal.ofExactText? text with
  | some d => .ok (.decimal d)
  | none => .error (.number text)

mutual

def ofJson : Json → Except ValueError Value
  | .null => .ok .null
  | .bool b => .ok (.bool b)
  | .int n =>
    if -2 ^ 63 ≤ n ∧ n < 2 ^ 63 then .ok (.int (.ofInt n))
    else ofNumber (String.ofList (Json.intChars n))
  | .float x => ofNumber x.text
  | .str s => .ok (.text s)
  | .arr items => (ofItems items).map .list
  | .obj members =>
    match tag? members with
    | some tag => ofTagged tag members
    | none => (ofMembers members).map recordOf

def ofItems : List Json → Except ValueError (List Value)
  | [] => .ok []
  | j :: rest => do return (← ofJson j) :: (← ofItems rest)

def ofMembers : List (String × Json) → Except ValueError (List (String × Value))
  | [] => .ok []
  | (n, j) :: rest => do return (n, ← ofJson j) :: (← ofMembers rest)

end

end Value

end RecordRules
