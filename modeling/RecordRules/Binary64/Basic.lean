import RecordRules.Rounding

/-!
# Finite binary64 numbers

A number is a sign, a significand below `2 ^ 53` and a power of two.  All rounding is to the
nearest representable number, a tie to the even significand, computed on exact fractions.
-/

namespace RecordRules

/-- The number `significand * 2 ^ exponent`. -/
structure Magnitude where
  significand : Nat
  exponent : Int
deriving DecidableEq

structure Binary64 where
  negative : Bool
  magnitude : Magnitude
deriving DecidableEq

namespace Magnitude

def minExponent : Int := -1074

def maxExponent : Int := 971

def zero : Magnitude := ⟨0, minExponent⟩

/-- The power of two of the leading bit of `num / den`. -/
def leadingBit (num den : Nat) : Int :=
  let e : Int := (num.log2 : Int) - den.log2
  if num * Nat.pow 2 (-e).toNat < den * Nat.pow 2 e.toNat then e - 1 else e

/-- The magnitude nearest to `num / den`, or `none` beyond the largest one. -/
def ofRatio? (num den : Nat) : Option Magnitude :=
  if num = 0 then some zero
  else
    let q := max (leadingBit num den - 52) minExponent
    let m := roundHalfEven (num * Nat.pow 2 (-q).toNat) (den * Nat.pow 2 q.toNat)
    let r : Magnitude := if m = Nat.pow 2 53 then ⟨Nat.pow 2 52, q + 1⟩ else ⟨m, q⟩
    if maxExponent < r.exponent then none else some r

/-- Numerator and denominator of the exact value. -/
def ratio (a : Magnitude) : Nat × Nat :=
  (a.significand * Nat.pow 2 a.exponent.toNat, Nat.pow 2 (-a.exponent).toNat)

def mul? (a b : Magnitude) : Option Magnitude :=
  ofRatio? (a.ratio.1 * b.ratio.1) (a.ratio.2 * b.ratio.2)

def div? (a b : Magnitude) : Option Magnitude :=
  ofRatio? (a.ratio.1 * b.ratio.2) (a.ratio.2 * b.ratio.1)

/-- The magnitude nearest to `10 ^ k`. -/
def powerOfTen? (k : Nat) : Option Magnitude := ofRatio? (Nat.pow 10 k) 1

/-- The greatest power of ten below infinity. -/
def maxTens : Nat := 308

/-- `a / p` again and again, until nothing is left. -/
def divTimes? (p : Magnitude) : Nat → Magnitude → Option Magnitude
  | 0, a => some a
  | n + 1, a => if a.significand = 0 then some a else (a.div? p).bind (divTimes? p n)

/-- `a * 10 ^ k`.  A power of ten beyond the largest one is taken in several rounded factors, as
many of them full ones as it takes. -/
def timesTen? (a : Magnitude) (k : Int) : Option Magnitude :=
  if 0 ≤ k then
    if k.toNat ≤ maxTens then (powerOfTen? k.toNat).bind a.mul?
    else if a.significand = 0 then some a
    else none
  else
    let full := (k.natAbs - 1) / maxTens
    do
      let b ← divTimes? (← powerOfTen? maxTens) full a
      b.div? (← powerOfTen? (k.natAbs - full * maxTens))

end Magnitude

namespace Binary64

/-- Put a decimal digit behind a 64-bit number as long as the result stays one. -/
def absorb (n : Nat) : List Char → Nat × List Char
  | [] => (n, [])
  | c :: rest =>
    let next := n * 10 + (c.toNat - '0'.toNat)
    if next < UInt64.size then absorb next rest else (n, c :: rest)

/-- The number with these digits before and after the point and this power of ten.  As many
leading digits count as fit in 64 bits. -/
def ofDigits? (negative : Bool) (whole fraction : List Char) (tens : Int) : Option Binary64 :=
  let (n, dropped) := absorb 0 whole
  let (n, unread) := absorb n fraction
  let k : Int := dropped.length - (fraction.length - unread.length : Nat) + tens
  ((Magnitude.ofRatio? n 1).bind (·.timesTen? k)).map (⟨negative, ·⟩)

end Binary64

end RecordRules
