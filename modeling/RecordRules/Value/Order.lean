import RecordRules.Value.Basic

/-!
# The order of values

`null` comes before everything.  Numbers compare by value, text by code points, dates and points
in time by the calendar.  Values of different kinds, and lists and records, do not compare.
-/

namespace RecordRules.Value

def cmp? : Value → Value → Option Ordering
  | null, null => some .eq
  | null, _ => some .lt
  | _, null => some .gt
  | bool a, bool b => some (compare a b)
  | int a, int b => some (compare a.toInt b.toInt)
  | int a, decimal b => some (compare (Decimal.ofInt64 a) b)
  | decimal a, int b => some (compare a (Decimal.ofInt64 b))
  | decimal a, decimal b => some (compare a b)
  | text a, text b => some (compare a b)
  | date a, date b => some (compare a b)
  | dateTime a, dateTime b => some (compare a b)
  | _, _ => none

/-- `-1`, `0` or `1`. -/
def ofOrdering : Ordering → Value
  | .lt => int (-1)
  | .eq => int 0
  | .gt => int 1

end RecordRules.Value
