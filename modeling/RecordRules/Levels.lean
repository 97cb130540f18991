/-!
# Breadth-first order

A tree is listed level by level: the list of levels of a node starts with the node alone, and
goes on with the levels of its subtrees merged from left to right.
-/

namespace RecordRules.Levels

variable {α : Type}

/-- Join the levels of two forests. -/
def merge : List (List α) → List (List α) → List (List α)
  | [], ms => ms
  | ls, [] => ls
  | l :: ls, m :: ms => (l ++ m) :: merge ls ms

end RecordRules.Levels
