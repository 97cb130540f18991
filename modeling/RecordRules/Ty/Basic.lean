import RecordRules.Value.Basic

/-!
# Types

What values a record, a field or a parameter may hold.  Which type may be used where another
one is declared is decided elsewhere (`RecordRules.Ty.Accepts`).
-/

namespace RecordRules

inductive Ty where
  /-- Every value. -/
  | any
  | null
  | bool
  | int
  | decimal
  | text
  | date
  | dateTime
  /-- One value. -/
  | literal (value : Value)
  /-- The values of any member. -/
  | union (members : List Ty)
  | list (element : Ty)
  /-- Lists of fixed length with a type for each position. -/
  | tuple (items : List Ty)
  /-- Records with these fields, in the order of their declaration. -/
  | record (fields : List (String × Ty))
deriving Inhabited

namespace Ty

/-- The type or `null`. -/
def optional (t : Ty) : Ty := union [t, null]

/-- The results of a three-way comparison. -/
def ordering : Ty := union [literal (.int (-1)), literal (.int 0), literal (.int 1)]

def isNull : Ty → Bool
  | null => true
  | _ => false

def isBool : Ty → Bool
  | bool => true
  | _ => false

def isRecord : Ty → Bool
  | record _ => true
  | _ => false

/-! ## Equality -/

mutual

def beq : Ty → Ty → Bool
  | any, any => true
  | null, null => true
  | bool, bool => true
  | int, int => true
  | decimal, decimal => true
  | text, text => true
  | date, date => true
  | dateTime, dateTime => true
  | literal v, literal w => v == w
  | union as, union bs => beqList as bs
  | list a, list b => beq a b
  | tuple as, tuple bs => beqList as bs
  | record as, record bs => beqFields as bs
  | _, _ => false

def beqList : List Ty → List Ty → Bool
  | [], [] => true
  | a :: as, b :: bs => beq a b && beqList as bs
  | _, _ => false

def beqFields : List (String × Ty) → List (String × Ty) → Bool
  | [], [] => true
  | (m, a) :: as, (n, b) :: bs => m == n && beq a b && beqFields as bs
  | _, _ => false

end

instance : BEq Ty := ⟨beq⟩

/-! ## Parts -/

/-- The declared fields of a record type. -/
def fields? : Ty → Option (List (String × Ty))
  | record fields => some fields
  | _ => none

/-- The first declaration of a field. -/
def field? (t : Ty) (name : String) : Option Ty := t.fields?.bind (Entries.get? name)

mutual

/-- One step down.  A union has the parts of its only member other than `null`. -/
def child? : Ty → Step → Option Ty
  | any, _ => some any
  | record fields, .field name => Entries.get? name fields
  | list element, .index _ => some element
  | tuple items, .index i => items[i.toNat]?
  | union members, s => childOfSole? members s
  | _, _ => none

def childOfSole? : List Ty → Step → Option Ty
  | [], _ => none
  | t :: rest, s =>
    if t.isNull then childOfSole? rest s
    else if rest.all isNull then child? t s
    else none

end

/-- The type at the end of a path, unless the path leaves the type. -/
def atPath? (t : Ty) : Path → Option Ty
  | [] => some t
  | s :: rest => (t.child? s).bind (·.atPath? rest)

/-! ## Numbers -/

mutual

/-- Whether all values of the type are numbers. -/
def isNumberLike : Ty → Bool
  | int => true
  | decimal => true
  | literal (.int _) => true
  | literal (.decimal _) => true
  | union members => !members.isEmpty && allNumberLike members
  | _ => false

def allNumberLike : List Ty → Bool
  | [] => true
  | t :: rest => isNumberLike t && allNumberLike rest

end

/-! ## Values of a type -/

mutual

/-- Whether a value is one of the type.  Whole numbers are decimals, and a field that is missing
counts as `null`. -/
def admits : Ty → Value → Bool
  | any, _ => true
  | null, .null => true
  | bool, .bool _ => true
  | int, .int _ => true
  | decimal, .decimal _ => true
  | decimal, .int _ => true
  | text, .text _ => true
  | date, .date _ => true
  | dateTime, .dateTime _ => true
  | literal w, v => w == v
  | union members, v => someAdmits members v
  | list element, .list vs => vs.all fun v => admits element v
  | tuple items, .list vs => eachAdmits items vs
  | record fields, .record vs => fieldsAdmit fields vs.toList
  | _, _ => false

def someAdmits : List Ty → Value → Bool
  | [], _ => false
  | t :: rest, v => admits t v || someAdmits rest v

def eachAdmits : List Ty → List Value → Bool
  | [], [] => true
  | t :: ts, v :: vs => admits t v && eachAdmits ts vs
  | _, _ => false

def fieldsAdmit : List (String × Ty) → List (String × Value) → Bool
  | [], _ => true
  | (n, t) :: rest, vs => admits t ((Entries.get? n vs).getD .null) && fieldsAdmit rest vs

end

/-! ## Display -/

mutual

def display : Ty → String
  | any => "Any"
  | null => "Null"
  | bool => "Bool"
  | int => "Int"
  | decimal => "Decimal"
  | text => "Text"
  | date => "Date"
  | dateTime => "DateTime"
  | literal v => v.display
  | union members => displayList " | " members
  | list element => "List<" ++ display element ++ ">"
  | tuple items => "(" ++ displayList ", " items ++ ")"
  | record fields => "\x7b" ++ displayFields fields ++ "\x7d"

def displayList (separator : String) : List Ty → String
  | [] => ""
  | [t] => display t
  | t :: rest => display t ++ separator ++ displayList separator rest

def displayFields : List (String × Ty) → String
  | [] => ""
  | [(n, t)] => n ++ ": " ++ display t
  | (n, t) :: rest => n ++ ": " ++ display t ++ ", " ++ displayFields rest

end

end Ty

end RecordRules
