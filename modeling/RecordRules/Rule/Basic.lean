/-!
# Rule trees

A rule is a boolean combination of filters: a single filter, or a group of rules joined by `and`
or `or`, whose result may be inverted.  What a single filter is, is left open.
-/

namespace RecordRules

inductive Connective where
  | and
  | or
deriving DecidableEq

namespace Connective

def toggle : Connective → Connective
  | and => or
  | or => and

@[simp] theorem toggle_toggle (op : Connective) : op.toggle.toggle = op := by cases op <;> rfl

end Connective

inductive Rule (α : Type) where
  | leaf (filter : α)
  | group (id : String) (op : Connective) (invert : Bool) (conditions : List (Rule α))

/-- A single filter has an id and a flag that inverts its result. -/
class Leaf (α : Type) where
  id : α → String
  setInvert : Bool → α → α
  id_setInvert : ∀ invert a, id (setInvert invert a) = id a

attribute [simp] Leaf.id_setInvert

variable {α β ε : Type}

namespace Rule

def isGroup : Rule α → Bool
  | leaf _ => false
  | group .. => true

def id [Leaf α] : Rule α → String
  | leaf a => Leaf.id a
  | group id .. => id

def conditions : Rule α → List (Rule α)
  | leaf _ => []
  | group _ _ _ conditions => conditions

@[simp] theorem id_leaf [Leaf α] (a : α) : (leaf a).id = Leaf.id a := rfl

@[simp] theorem id_group [Leaf α] (id : String) (op : Connective) (invert : Bool)
    (conditions : List (Rule α)) : (group id op invert conditions).id = id := rfl

@[simp] theorem conditions_leaf (a : α) : (leaf a).conditions = [] := rfl

@[simp] theorem conditions_group (id : String) (op : Connective) (invert : Bool)
    (conditions : List (Rule α)) : (group id op invert conditions).conditions = conditions := rfl

/-- Induction over rules: a statement holds of a group if it holds of all its conditions. -/
@[elab_as_elim, induction_eliminator]
theorem induct {motive : Rule α → Prop} (leaf : ∀ a, motive (.leaf a))
    (group : ∀ id op invert conditions, (∀ r ∈ conditions, motive r) →
      motive (.group id op invert conditions))
    (r : Rule α) : motive r :=
  @Rule.rec α motive (fun rs => ∀ r ∈ rs, motive r) leaf group (by simp)
    (fun r rest hr hrest => by simpa using ⟨hr, hrest⟩) r

mutual

/-- The filters from left to right. -/
def leaves : Rule α → List α
  | leaf a => [a]
  | group _ _ _ conditions => leavesOf conditions

def leavesOf : List (Rule α) → List α
  | [] => []
  | r :: rest => leaves r ++ leavesOf rest

end

/-- The leaves of several rules are those of each, one rule after the other. -/
theorem leavesOf_eq (rs : List (Rule α)) : leavesOf rs = rs.flatMap leaves := by
  induction rs with
  | nil => rfl
  | cons r rest ih => simp [leavesOf, ih]

@[simp] theorem mem_leaves_leaf {a b : α} : b ∈ (leaf a).leaves ↔ b = a := by
  rw [leaves, List.mem_singleton]

/-- The leaves of a group are those of its conditions. -/
@[simp] theorem mem_leaves_group {a : α} {id : String} {op : Connective} {invert : Bool}
    {conditions : List (Rule α)} :
    a ∈ (group id op invert conditions).leaves ↔ ∃ c ∈ conditions, a ∈ c.leaves := by
  rw [leaves, leavesOf_eq, List.mem_flatMap]

mutual

/-- The ids of all nodes, each group before its conditions. -/
def ids [Leaf α] : Rule α → List String
  | leaf a => [Leaf.id a]
  | group id _ _ conditions => id :: idsOf conditions

def idsOf [Leaf α] : List (Rule α) → List String
  | [] => []
  | r :: rest => ids r ++ idsOf rest

end

/-- The ids of several rules are those of each, one rule after the other. -/
theorem idsOf_eq [Leaf α] (rs : List (Rule α)) : idsOf rs = rs.flatMap ids := by
  induction rs with
  | nil => rfl
  | cons r rest ih => simp [idsOf, ih]

@[simp] theorem ids_leaf [Leaf α] (a : α) : (leaf a).ids = [Leaf.id a] := by simp [ids]

/-- The ids of a group are its own and then those of its conditions, in pre-order. -/
@[simp] theorem ids_group [Leaf α] (id : String) (op : Connective) (invert : Bool)
    (conditions : List (Rule α)) :
    (group id op invert conditions).ids = id :: conditions.flatMap ids := by
  simp [ids, idsOf_eq]

/-- The id of a rule comes first among its ids, whether it is a leaf or a group. -/
theorem ids_eq [Leaf α] (r : Rule α) : r.ids = r.id :: r.conditions.flatMap ids := by
  cases r <;> simp

mutual

/-- The number of single filters. -/
def leafCount : Rule α → Nat
  | leaf _ => 1
  | group _ _ _ conditions => leafCountOf conditions

def leafCountOf : List (Rule α) → Nat
  | [] => 0
  | r :: rest => leafCount r + leafCountOf rest

end

mutual

/-- The same tree with other filters. -/
def map (f : α → β) : Rule α → Rule β
  | leaf a => leaf (f a)
  | group id op invert conditions => group id op invert (mapList f conditions)

def mapList (f : α → β) : List (Rule α) → List (Rule β)
  | [] => []
  | r :: rest => map f r :: mapList f rest

end

/-- A rule is mapped by mapping each of its conditions. -/
theorem mapList_eq (f : α → β) (rs : List (Rule α)) : mapList f rs = rs.map (map f) := by
  induction rs with
  | nil => rfl
  | cons r rest ih => rw [mapList, ih, List.map_cons]

mutual

/-- The same tree with other filters, unless one of them fails; the first to fail counts. -/
def traverse (f : α → Except ε β) : Rule α → Except ε (Rule β)
  | leaf a => (f a).map leaf
  | group id op invert conditions => (traverseList f conditions).map (group id op invert)

def traverseList (f : α → Except ε β) : List (Rule α) → Except ε (List (Rule β))
  | [] => .ok []
  | r :: rest => do return (← traverse f r) :: (← traverseList f rest)

end

mutual

def beq [BEq α] : Rule α → Rule α → Bool
  | leaf a, leaf b => a == b
  | group i op v as, group j op' w bs => i == j && op == op' && v == w && beqList as bs
  | _, _ => false

def beqList [BEq α] : List (Rule α) → List (Rule α) → Bool
  | [], [] => true
  | a :: as, b :: bs => beq a b && beqList as bs
  | _, _ => false

end

instance [BEq α] : BEq (Rule α) := ⟨beq⟩

end Rule

end RecordRules
