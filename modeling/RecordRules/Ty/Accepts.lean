import RecordRules.Ty.Basic

/-!
# Compatible types

`e.accepts a` says that a value of type `a` may be passed where `e` is declared:

- `any` accepts every type, and each type accepts an equal one;
- a union is accepted member by member, and accepts what one of its members accepts;
- a literal is accepted where its value is admitted;
- `int` is accepted as `decimal`;
- lists and tuples go by their elements, and a record needs each expected field with a
  compatible type, whatever other fields it has.
-/

namespace RecordRules.Ty

mutual

/-- `e` accepts a type that is equal to it, a union all of whose members it accepts, and of the
other types those that satisfy `p`. -/
def overMembers (e : Ty) (p : Ty → Bool) : Ty → Bool
  | union members =>
    e == union members || (!members.isEmpty && overAllMembers e p members)
  | a => e == a || p a

def overAllMembers (e : Ty) (p : Ty → Bool) : List Ty → Bool
  | [] => true
  | a :: rest => overMembers e p a && overAllMembers e p rest

end

/-- Literals go by their value. -/
def acceptsLiteral (e : Ty) : Ty → Bool
  | literal v => e.admits v
  | _ => false

mutual

def accepts : Ty → Ty → Bool
  | any, _ => true
  | union members, a => overMembers (union members) (fun a => someAccepts members a) a
  | decimal, a => overMembers decimal (fun
      | int => true
      | a => acceptsLiteral decimal a) a
  | list element, a => overMembers (list element) (fun
      | list b => accepts element b
      | a => acceptsLiteral (list element) a) a
  | tuple items, a => overMembers (tuple items) (fun
      | tuple bs => eachAccepts items bs
      | a => acceptsLiteral (tuple items) a) a
  | record fields, a => overMembers (record fields) (fun
      | record bs => fieldsAccept fields bs
      | a => acceptsLiteral (record fields) a) a
  | e, a => overMembers e (acceptsLiteral e) a

def someAccepts : List Ty → Ty → Bool
  | [], _ => false
  | e :: rest, a => accepts e a || someAccepts rest a

def eachAccepts : List Ty → List Ty → Bool
  | [], [] => true
  | e :: es, a :: as => accepts e a && eachAccepts es as
  | _, _ => false

def fieldsAccept : List (String × Ty) → List (String × Ty) → Bool
  | [], _ => true
  | (n, e) :: rest, as =>
    (match Entries.get? n as with
    | some a => accepts e a
    | none => false) && fieldsAccept rest as

end

end RecordRules.Ty
