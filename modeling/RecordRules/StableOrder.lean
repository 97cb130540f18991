/-!
# Stable sorting with comparisons that may fail

Neighbouring runs are merged, pass after pass, until one is left.  The comparison is asked
whether the next element of the right run comes before that of the left one; the left one goes
first otherwise, so elements that tie keep their order.  The comparison need not be consistent,
and the first failure ends the sort.
-/

namespace RecordRules.StableOrder

variable {α ε : Type} (cmp : α → α → Except ε Ordering)

/-- Merge a run that starts with `a`; `rest` merges what comes after `a`. -/
def mergeHead (a : α) (left : List α) (rest : List α → Except ε (List α)) :
    List α → Except ε (List α)
  | [] => .ok (a :: left)
  | b :: right => do
    match ← cmp b a with
    | .lt => return b :: (← mergeHead a left rest right)
    | _ => return a :: (← rest (b :: right))

def merge : List α → List α → Except ε (List α)
  | [], right => .ok right
  | a :: left, right => mergeHead cmp a left (merge left) right

/-- Merge each run with the next one; the last one may be left over. -/
def pass : List (List α) → Except ε (List (List α))
  | left :: right :: rest => do return (← merge cmp left right) :: (← pass rest)
  | runs => .ok runs

def passes : Nat → List (List α) → Except ε (List (List α))
  | 0, runs => .ok runs
  | n + 1, runs => do passes n (← pass cmp runs)

/-- Sort a list.  Each pass halves the number of runs, so there are passes enough. -/
def sort (l : List α) : Except ε (List α) :=
  (passes cmp l.length (l.map ([·]))).map List.flatten

/-- The positions below `n` in sorted order. -/
def order (n : Nat) (cmp : Nat → Nat → Except ε Ordering) : Except ε (List Nat) :=
  sort cmp (List.range n)

end RecordRules.StableOrder
