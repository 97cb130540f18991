import RecordRules.Json.Basic

/-!
# Paths into a record

A path lists the steps from a record down to one of its parts.  It is written as an array of
names and positions, which have 64 bits.
-/

namespace RecordRules

inductive Step where
  | index (i : UInt64)
  | field (name : String)
deriving DecidableEq

/-- The empty path is the record itself. -/
abbrev Path := List Step

namespace Step

def display : Step → String
  | index i => s!"[{i}]"
  | field name => name

/-- Positions come before names. -/
def cmp : Step → Step → Ordering
  | index i, index j => compare i j
  | index _, field _ => .lt
  | field _, index _ => .gt
  | field a, field b => compare a b

def toJson : Step → Json
  | index i => .ofNat i.toNat
  | field name => .str name

def ofJson? : Json → Option Step
  | .str name => some (field name)
  | j => j.asNat?.map fun i => index (.ofNat i)

end Step

namespace Path

def fields (names : List String) : Path := names.map .field

/-- One step further down. -/
def child (p : Path) (s : Step) : Path := p ++ [s]

/-- The steps after the first; a point stands before each name. -/
def displayRest : Path → String
  | [] => ""
  | .field name :: rest => "." ++ name ++ displayRest rest
  | s :: rest => s.display ++ displayRest rest

def display : Path → String
  | [] => "<root>"
  | s :: rest => s.display ++ displayRest rest

/-- The order of the first steps that differ; a path comes before its extensions. -/
def cmp : Path → Path → Ordering
  | [], [] => .eq
  | [], _ :: _ => .lt
  | _ :: _, [] => .gt
  | s :: p, t :: q => (s.cmp t).then (cmp p q)

def toJson (p : Path) : Json := .arr (p.map Step.toJson)

def ofJson? : Json → Option Path := Json.asListOf? Step.ofJson?

end Path

end RecordRules
