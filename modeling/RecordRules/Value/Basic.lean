import RecordRules.Calendar.DateTime
import RecordRules.Decimal.Text
import RecordRules.Path
import RecordRules.Text.Quoted

/-!
# Values

The records that rules look at, and the arguments that rules carry.  The fields of a record
stand in ascending order of their names, and no two have one name.
-/

namespace RecordRules

mutual

inductive Value where
  | null
  | bool (b : Bool)
  | int (i : Int64)
  | decimal (d : Decimal)
  | text (s : String)
  | date (d : Date)
  | dateTime (t : DateTime)
  | list (items : List Value)
  | record (fields : Value.Fields none)

/-- Fields in ascending order whose names all come after `last`. -/
inductive Value.Fields : Option String → Type where
  | nil {last : Option String} : Value.Fields last
  | cons {last : Option String} (name : String) (after : last < some name) (value : Value)
      (rest : Value.Fields (some name)) : Value.Fields last

end

namespace Value

instance : Inhabited Value := ⟨null⟩

/-! ## Fields -/

namespace Fields

def toList : {last : Option String} → Fields last → List (String × Value)
  | _, nil => []
  | _, cons name _ value rest => (name, value) :: rest.toList

/-- Put a field in its place, instead of one with the same name. -/
def insert (name : String) (value : Value) :
    {last : Option String} → Fields last → last < some name → Fields last
  | _, nil, h => cons name h value nil
  | _, cons n hn v rest, h =>
    if hlt : name < n then cons name h value (cons n (Option.some_lt_some.2 hlt) v rest)
    else if heq : name = n then cons n hn value rest
    else
      have hgt := Entries.lt_of_not_lt_of_ne hlt heq
      cons n hn v (rest.insert name value (Option.some_lt_some.2 hgt))

/-- Fields in any order; of several with one name the first one counts. -/
def ofList : List (String × Value) → Fields none
  | [] => nil
  | (name, value) :: rest => (ofList rest).insert name value Option.none_lt_some

end Fields

/-- The record with these fields. -/
def recordOf (fields : List (String × Value)) : Value := record (.ofList fields)

/-- The name of a value's kind in messages. -/
def kindName : Value → String
  | null => "Null"
  | bool _ => "Bool"
  | int _ => "Int"
  | decimal _ => "Decimal"
  | text _ => "Text"
  | date _ => "Date"
  | dateTime _ => "DateTime"
  | list _ => "List"
  | record _ => "Record"

def isNull : Value → Bool
  | null => true
  | _ => false

def asBool? : Value → Option Bool
  | bool b => some b
  | _ => none

def asInt? : Value → Option Int64
  | int i => some i
  | _ => none

/-- The number that a whole or a decimal value stands for. -/
def asDecimal? : Value → Option Decimal
  | int i => some (.ofInt64 i)
  | decimal d => some d
  | _ => none

def asText? : Value → Option String
  | text s => some s
  | _ => none

/-! ## Parts -/

/-- One step down: records go by name, lists by position. -/
def child? : Value → Step → Option Value
  | record fields, .field name => Entries.get? name fields.toList
  | list items, .index i => items[i.toNat]?
  | _, _ => none

/-- The value at the end of a path; `null` where the path leaves the value. -/
def atPath (v : Value) : Path → Value
  | [] => v
  | s :: rest =>
    match v.child? s with
    | some w => w.atPath rest
    | none => null

/-! ## Equality

Decimals are equal by value, points in time by instant. -/

mutual

def beq : Value → Value → Bool
  | null, null => true
  | bool a, bool b => a == b
  | int a, int b => a == b
  | decimal a, decimal b => a == b
  | text a, text b => a == b
  | date a, date b => a == b
  | dateTime a, dateTime b => a == b
  | list as, list bs => beqList as bs
  | record as, record bs => beqFields as bs
  | _, _ => false

def beqList : List Value → List Value → Bool
  | [], [] => true
  | a :: as, b :: bs => beq a b && beqList as bs
  | _, _ => false

def beqFields : {l m : Option String} → Fields l → Fields m → Bool
  | _, _, .nil, .nil => true
  | _, _, .cons m _ a as, .cons n _ b bs => m == n && beq a b && beqFields as bs
  | _, _, _, _ => false

end

instance : BEq Value := ⟨beq⟩

/-! ## Display -/

mutual

def display : Value → String
  | null => "null"
  | bool true => "true"
  | bool false => "false"
  | int i => String.ofList (if i.toInt < 0 then '-' :: Nat.toDigits 10 i.toInt.natAbs
      else Nat.toDigits 10 i.toInt.natAbs)
  | decimal d => d.text
  | text s => Text.quoted s
  | date d => d.text
  | dateTime t => t.display
  | list items => "[" ++ displayItems items ++ "]"
  | record fields => "\x7b" ++ displayFields fields ++ "\x7d"

def displayItems : List Value → String
  | [] => ""
  | [v] => display v
  | v :: rest => display v ++ ", " ++ displayItems rest

def displayFields : {last : Option String} → Fields last → String
  | _, .nil => ""
  | _, .cons n _ v .nil => n ++ ": " ++ display v
  | _, .cons n _ v rest => n ++ ": " ++ display v ++ ", " ++ displayFields rest

end

end Value

end RecordRules
