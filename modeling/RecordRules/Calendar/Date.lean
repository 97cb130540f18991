import RecordRules.Text.Digits

/-!
# Calendar dates

Dates of the Gregorian calendar, extended to the years -9999 to 9999.  A date is written as
four digits of the year, with a minus sign before the year 0, and two digits each of month and
day.  A plus sign is read as well.
-/

namespace RecordRules

namespace Calendar

def isLeap (year : Int) : Bool :=
  year % 4 = 0 && (year % 100 ≠ 0 || year % 400 = 0)

def daysIn (year : Int) (month : Nat) : Nat :=
  if month = 2 then if isLeap year then 29 else 28
  else if month = 4 ∨ month = 6 ∨ month = 9 ∨ month = 11 then 30
  else 31

def IsDate (year : Int) (month day : Nat) : Prop :=
  -9999 ≤ year ∧ year ≤ 9999 ∧ 1 ≤ month ∧ month ≤ 12 ∧ 1 ≤ day ∧ day ≤ daysIn year month

instance (year : Int) (month day : Nat) : Decidable (IsDate year month day) :=
  inferInstanceAs (Decidable (_ ∧ _))

end Calendar

open Calendar

structure Date where
  year : Int
  month : Nat
  day : Nat
  isDate : IsDate year month day
deriving DecidableEq

namespace Date

def ofParts? (year : Int) (month day : Nat) : Option Date :=
  if h : IsDate year month day then some ⟨year, month, day, h⟩ else none

def cmp (a b : Date) : Ordering :=
  (compare a.year b.year).then ((compare a.month b.month).then (compare a.day b.day))

instance : Ord Date := ⟨cmp⟩

/-- Days since the first of March of the year 0. -/
def dayNumber (d : Date) : Int :=
  let y := if d.month ≤ 2 then d.year - 1 else d.year
  let m := (d.month + 9) % 12
  365 * y + y / 4 - y / 100 + y / 400 + ((153 * m + 2) / 5 + d.day - 1 : Nat)

def chars (d : Date) : List Char :=
  let body := Text.paddedDigits 4 d.year.natAbs ++ '-' :: Text.paddedDigits 2 d.month
    ++ '-' :: Text.paddedDigits 2 d.day
  if d.year < 0 then '-' :: body else body

def text (d : Date) : String := String.ofList d.chars

/-- Year, month and day after the sign, and what follows. -/
def readParts? (cs : List Char) : Option ((Nat × Nat × Nat) × List Char) := do
  let (year, cs) ← Text.fixedDigits? 4 cs
  let cs ← Text.after? '-' cs
  let (month, cs) ← Text.fixedDigits? 2 cs
  let cs ← Text.after? '-' cs
  let (day, cs) ← Text.fixedDigits? 2 cs
  return ((year, month, day), cs)

def ofChars? (cs : List Char) : Option Date :=
  let (negative, unsigned) := match cs with
    | '-' :: rest => (true, rest)
    | '+' :: rest => (false, rest)
    | cs => (false, cs)
  match readParts? unsigned with
  | some ((year, month, day), []) => ofParts? (if negative then -(year : Int) else year) month day
  | _ => none

def ofText? (s : String) : Option Date := ofChars? s.toList

end Date

end RecordRules
