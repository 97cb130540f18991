import RecordRules.Rounding

/-!
# Decimal numbers

A sign and a magnitude of at most 96 bits over a power of ten of at most `10 ^ 28`.  The scale and
the sign of a zero are part of a number and kept in its text, but equality and order see only the
value.
-/

namespace RecordRules

/-- Magnitudes stay below this. -/
def Decimal.limit : Nat := Nat.pow 2 96

/-- The number `± magnitude / 10 ^ scale`. -/
structure Decimal where
  negative : Bool
  magnitude : Nat
  scale : Nat
  magnitude_lt : magnitude < Decimal.limit
  scale_le : scale ≤ 28

namespace Decimal

/-- The largest scale. -/
def maxScale : Nat := 28

/-- The number is `coefficient / 10 ^ scale`. -/
def coefficient (d : Decimal) : Int := if d.negative then -d.magnitude else d.magnitude

/-- Zero with a minus sign. -/
def isNegativeZero (d : Decimal) : Bool := d.negative && d.magnitude == 0

/-- A zero gets no sign. -/
def ofParts? (coefficient : Int) (scale : Nat) : Option Decimal :=
  if h : coefficient.natAbs < limit ∧ scale ≤ 28 then
    some ⟨decide (coefficient < 0), coefficient.natAbs, scale, h.1, h.2⟩
  else none

def zero : Decimal := ⟨false, 0, 0, by decide, by decide⟩

instance : Inhabited Decimal := ⟨zero⟩

/-- A 64-bit integer is far below the bound of the magnitudes, so every integer is a decimal. -/
theorem natAbs_toInt_lt_limit (i : Int64) : i.toInt.natAbs < limit := by
  have hlimit : limit = 79228162514264337593543950336 := rfl
  have := i.le_toInt
  have := i.toInt_lt
  omega

def ofInt64 (i : Int64) : Decimal :=
  ⟨decide (i.toInt < 0), i.toInt.natAbs, 0, natAbs_toInt_lt_limit i, by decide⟩

/-- Order by value: both coefficients are brought to the sum of the scales. -/
def cmp (a b : Decimal) : Ordering :=
  compare (a.coefficient * Nat.pow 10 b.scale) (b.coefficient * Nat.pow 10 a.scale)

instance : Ord Decimal := ⟨cmp⟩

/-- Equality by value: `1.5` and `1.50` are equal. -/
instance : BEq Decimal := ⟨fun a b => a.cmp b == .eq⟩

/-- How the number compares with zero. -/
def sign (d : Decimal) : Ordering := compare d.coefficient 0

def neg (d : Decimal) : Decimal := { d with negative := !d.negative }

/-- The value `coefficient / 10 ^ scale` with as many of its digits as a decimal holds. -/
def fit? (coefficient : Int) (scale : Nat) : Option Decimal :=
  (List.range (scale + 1)).findSome? fun dropped =>
    ofParts? (coefficient.sign * roundHalfEven coefficient.natAbs (Nat.pow 10 dropped))
      (scale - dropped)

/-- The difference, or `none` when it is too large. -/
def sub? (a b : Decimal) : Option Decimal :=
  if a.magnitude = 0 then some (if b.magnitude = 0 then b else b.neg)
  else if b.magnitude = 0 then some a
  else
    let scale := max a.scale b.scale
    fit? (a.coefficient * Nat.pow 10 (scale - a.scale) -
      b.coefficient * Nat.pow 10 (scale - b.scale)) scale

end Decimal

end RecordRules
