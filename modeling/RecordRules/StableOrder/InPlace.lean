/-!
# Stable sorting in two buffers

The merges of `RecordRules.StableOrder` as they run on positions in memory.  Each pass reads the
runs of one buffer and writes the merged ones over the other buffer; then the two change places.
All runs but the last are as wide as the pass says, so cursors are enough to tell them apart.

Nothing is taken for granted of the cursors.  An access outside of a buffer is a fault, and so is
a loop that has not come to its end after the rounds it is given.
-/

namespace RecordRules.StableOrder.InPlace

variable {ε σ : Type}

/-- What can keep a sort from its end. -/
inductive Fault (ε : Type) where
  | comparison (e : ε)
  | outOfBounds
  /-- The rounds are used up. -/
  | unfinished
  deriving DecidableEq, Repr

/-! ## Buffers -/

def read (buffer : List Nat) (i : Nat) : Except (Fault ε) Nat :=
  match buffer[i]? with
  | some a => .ok a
  | none => .error .outOfBounds

def write (buffer : List Nat) (i a : Nat) : Except (Fault ε) (List Nat) :=
  if i < buffer.length then .ok (buffer.set i a) else .error .outOfBounds

/-- How many positions there are from `start` up to `stop`, which must not be below it. -/
def distance (start stop : Nat) : Except (Fault ε) Nat :=
  if start ≤ stop then .ok (stop - start) else .error .outOfBounds

/-- What stands from `start` up to `stop`. -/
def slice (buffer : List Nat) (start stop : Nat) : Except (Fault ε) (List Nat) :=
  if start ≤ stop ∧ stop ≤ buffer.length then .ok ((buffer.take stop).drop start)
  else .error .outOfBounds

/-- Put `part` over what stands from `start` up to `stop`; both must be of one length. -/
def overwrite (buffer : List Nat) (start stop : Nat) (part : List Nat) :
    Except (Fault ε) (List Nat) :=
  if start ≤ stop ∧ stop ≤ buffer.length ∧ part.length = stop - start then
    .ok (buffer.take start ++ part ++ buffer.drop stop)
  else .error .outOfBounds

/-- A step again and again, while there is `more` to do and for so many rounds at most. -/
def repeatWhile (more : σ → Prop) [DecidablePred more] (step : σ → Except (Fault ε) σ)
    (rounds : Nat) (s : σ) : Except (Fault ε) σ :=
  if more s then
    match rounds with
    | 0 => .error .unfinished
    | rounds + 1 => do repeatWhile more step rounds (← step s)
  else .ok s

/-! ## One merge -/

/-- A merge under way: the next of the left run at `i` and of the right run at `j`, and the place
at `k` that is written next. -/
structure Merging where
  i : Nat
  j : Nat
  k : Nat
  scratch : List Nat

section

variable (cmp : Nat → Nat → Except ε Ordering) (order : List Nat)

/-- The next of both runs are compared, the right one first.  It goes first if it is less. -/
def mergeStep (s : Merging) : Except (Fault ε) Merging := do
  match ← (cmp (← read order s.j) (← read order s.i)).mapError .comparison with
  | .lt => return ⟨s.i, s.j + 1, s.k + 1, ← write s.scratch s.k (← read order s.j)⟩
  | _ => return ⟨s.i + 1, s.j, s.k + 1, ← write s.scratch s.k (← read order s.i)⟩

/-- Copy what is left of the run that ends at `mid` and then of the one that ends at `stop`. -/
def copyRests (mid stop : Nat) (s : Merging) : Except (Fault ε) (List Nat) := do
  let k := s.k + (← distance s.i mid)
  let scratch ← overwrite s.scratch s.k k (← slice order s.i mid)
  overwrite scratch k (k + (← distance s.j stop)) (← slice order s.j stop)

/-- Go on with a merge as long as both runs, up to `mid` and up to `stop`, have elements left. -/
def merge (rounds mid stop : Nat) (s : Merging) : Except (Fault ε) (List Nat) :=
  (repeatWhile (fun s => s.i < mid ∧ s.j < stop) (mergeStep cmp order) rounds s).bind
    (copyRests order mid stop)

end

/-! ## All merges -/

/-- A pass under way: what comes before `start` is merged. -/
structure Passing where
  start : Nat
  scratch : List Nat

/-- A sort under way. -/
structure Sorting where
  width : Nat
  order : List Nat
  scratch : List Nat

section

variable (rounds len : Nat) (cmp : Nat → Nat → Except ε Ordering)

def passStep (width : Nat) (order : List Nat) (s : Passing) : Except (Fault ε) Passing := do
  let mid := min (s.start + width) len
  let stop := min (s.start + 2 * width) len
  return ⟨stop, ← merge cmp order rounds mid stop ⟨s.start, mid, s.start, s.scratch⟩⟩

def pass (width : Nat) (order scratch : List Nat) : Except (Fault ε) (List Nat) :=
  (repeatWhile (·.start < len) (passStep rounds len cmp width order) rounds ⟨0, scratch⟩).map
    (·.scratch)

def sortStep (s : Sorting) : Except (Fault ε) Sorting := do
  return ⟨2 * s.width, ← pass rounds len cmp s.width s.order s.scratch, s.order⟩

/-- The positions below `len` in sorted order, with so many `rounds` for each of the loops. -/
def order : Except (Fault ε) (List Nat) :=
  (repeatWhile (·.width < len) (sortStep rounds len cmp) rounds
    ⟨1, List.range len, List.range len⟩).map (·.order)

end

end RecordRules.StableOrder.InPlace
