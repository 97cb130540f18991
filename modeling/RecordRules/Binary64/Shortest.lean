import RecordRules.Binary64.Basic

/-!
# Shortest decimal text of a binary64 number

The fewest digits that read back as the number, and of those the nearest ones.  Numbers from
`1e-5` up to `1e16` are written positionally and always with a point, others with an exponent.
-/

namespace RecordRules

namespace Magnitude

/-- The number `digits * 10 ^ exponent`. -/
structure Tens where
  digits : Nat
  exponent : Int

/-- Whether `t` lies among the reals that round to `a`; the ends count for an even significand. -/
def roundsTo (a : Magnitude) (t : Tens) : Bool :=
  -- everything in units of `2 ^ (exponent - 2)`, a quarter of the gap above `a`
  let unit := a.exponent - 2
  let low := if a.significand = Nat.pow 2 52 ∧ minExponent < a.exponent then 4 * a.significand - 1
    else 4 * a.significand - 2
  let high := 4 * a.significand + 2
  let scaled := t.digits * Nat.pow 10 t.exponent.toNat * Nat.pow 2 (-unit).toNat
  let units := Nat.pow 2 unit.toNat * Nat.pow 10 (-t.exponent).toNat
  if a.significand % 2 = 0 then low * units ≤ scaled && scaled ≤ high * units
  else low * units < scaled && scaled < high * units

/-- The power of ten of the leading digit of `num / den`. -/
def leadingTen (num den : Nat) : Int :=
  let e : Int := (Nat.toDigits 10 num).length - (Nat.toDigits 10 den).length
  if num * Nat.pow 10 (-e).toNat < den * Nat.pow 10 e.toNat then e - 1 else e

/-- The two neighbours of `a` on the grid of `count` digits, the nearer one first. -/
def neighbours (a : Magnitude) (count : Nat) : List Tens :=
  let (num, den) := a.ratio
  let k : Int := leadingTen num den + 1 - count
  let n := num * Nat.pow 10 (-k).toNat
  let d := den * Nat.pow 10 k.toNat
  let below : Tens := ⟨n / d, k⟩
  let above : Tens := ⟨n / d + 1, k⟩
  if roundHalfEven n d = n / d then [below, above] else [above, below]

/-- The fewest digits that read back as `a`. -/
def shortest (a : Magnitude) : Tens :=
  ((List.range 17).findSome? fun i => (a.neighbours (i + 1)).find? a.roundsTo).getD ⟨0, 0⟩

end Magnitude

namespace Binary64

/-- Digits without trailing zeros, and the power of ten in front of the first of them. -/
def digits (a : Magnitude) : List Char × Int :=
  let t := a.shortest
  let ds := Nat.toDigits 10 t.digits
  ((ds.reverse.dropWhile (· == '0')).reverse, t.exponent + ds.length)

/-- The digits of `0.ds * 10 ^ point` in positional or exponent notation. -/
def layout (ds : List Char) (point : Int) : List Char :=
  if -5 < point ∧ point ≤ 0 then
    '0' :: '.' :: (List.replicate (-point).toNat '0' ++ ds)
  else if 0 < point ∧ point ≤ 16 then
    if point.toNat < ds.length then ds.take point.toNat ++ '.' :: ds.drop point.toNat
    else ds ++ List.replicate (point.toNat - ds.length) '0' ++ ['.', '0']
  else
    let mantissa := match ds with
      | d :: e :: rest => d :: '.' :: e :: rest
      | _ => ds
    let sign := if point - 1 < 0 then '-' else '+'
    mantissa ++ 'e' :: sign :: Nat.toDigits 10 (point - 1).natAbs

def text (x : Binary64) : String :=
  let body := if x.magnitude.significand = 0 then ['0', '.', '0']
    else let (ds, point) := digits x.magnitude; layout ds point
  String.ofList (if x.negative then '-' :: body else body)

end Binary64

end RecordRules
