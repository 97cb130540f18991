/-!
# Rounding quotients
-/

namespace RecordRules

/-- `n / m` to the nearest whole number, a half to the even neighbour. -/
def roundHalfEven (n m : Nat) : Nat :=
  let q := n / m
  match compare (2 * (n % m)) m with
  | .lt => q
  | .gt => q + 1
  | .eq => if q % 2 = 0 then q else q + 1

/-- `n / m` to the nearest whole number, a half upwards. -/
def roundHalfUp (n m : Nat) : Nat := (2 * n + m) / (2 * m)

end RecordRules
