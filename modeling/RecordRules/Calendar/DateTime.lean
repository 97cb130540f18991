import RecordRules.Calendar.Date

/-!
# Points in time

A date and a time of day to the nanosecond, with the offset from UTC at which they are told.
The text is that of RFC 3339.  Equality and order are those of the instants, whatever the
offsets.

A sixtieth second is read only at the end of a month by UTC, where a leap second can be; it
becomes the last nanosecond before.
-/

namespace RecordRules

namespace Calendar

/-- A time of day and an offset from UTC in seconds, which is less than 26 hours. -/
def IsTime (hour minute second nanosecond : Nat) (offset : Int) : Prop :=
  hour < 24 ∧ minute < 60 ∧ second < 60 ∧ nanosecond < 1000000000 ∧ offset.natAbs < 26 * 3600

instance (h m s n : Nat) (o : Int) : Decidable (IsTime h m s n o) :=
  inferInstanceAs (Decidable (_ ∧ _))

end Calendar

structure DateTime where
  date : Date
  hour : Nat
  minute : Nat
  second : Nat
  nanosecond : Nat
  /-- Seconds ahead of UTC. -/
  offset : Int
  isTime : Calendar.IsTime hour minute second nanosecond offset

namespace DateTime

def secondOfDay (t : DateTime) : Int := t.hour * 3600 + t.minute * 60 + t.second

/-- Nanoseconds since the first of March of the year 0, by UTC. -/
def instant (t : DateTime) : Int :=
  (t.date.dayNumber * 86400 + t.secondOfDay - t.offset) * 1000000000 + t.nanosecond

def cmp (a b : DateTime) : Ordering := compare a.instant b.instant

instance : Ord DateTime := ⟨cmp⟩

/-- Equality of instants. -/
instance : BEq DateTime := ⟨fun a b => a.instant == b.instant⟩

/-! ## Text -/

/-- The digits of a fraction of a second without trailing zeros. -/
def fractionDigits (t : DateTime) : List Char :=
  ((Text.paddedDigits 9 t.nanosecond).reverse.dropWhile (· == '0')).reverse

def clock (width : Nat) (t : DateTime) : List Char :=
  Text.paddedDigits width t.hour ++ ':' :: Text.paddedDigits 2 t.minute
    ++ ':' :: Text.paddedDigits 2 t.second

/-- The hours and minutes of an offset. -/
def offsetChars (offset : Int) : List Char :=
  (if offset < 0 then '-' else '+') :: (Text.paddedDigits 2 (offset.natAbs / 3600)
    ++ ':' :: Text.paddedDigits 2 (offset.natAbs / 60 % 60))

/-- Years before 0, offsets of a day or more and offsets with seconds cannot be written. -/
def IsWritable (t : DateTime) : Prop :=
  0 ≤ t.date.year ∧ t.offset.natAbs < 24 * 3600 ∧ t.offset.natAbs % 60 = 0

instance (t : DateTime) : Decidable t.IsWritable := inferInstanceAs (Decidable (_ ∧ _))

def rfc3339Chars (t : DateTime) : List Char :=
  t.date.chars ++ 'T' :: clock 2 t
    ++ (if t.nanosecond = 0 then [] else '.' :: fractionDigits t)
    ++ (if t.offset = 0 then ['Z'] else offsetChars t.offset)

def rfc3339? (t : DateTime) : Option String :=
  if t.IsWritable then some (String.ofList t.rfc3339Chars) else none

/-- The text for readers: no padding of the hour, at least one digit of the fraction, and the
offset down to seconds. -/
def display (t : DateTime) : String :=
  let fraction := if t.nanosecond = 0 then ['0'] else fractionDigits t
  String.ofList (t.date.chars ++ ' ' :: clock 1 t ++ '.' :: fraction
    ++ ' ' :: offsetChars t.offset ++ ':' :: Text.paddedDigits 2 (t.offset.natAbs % 60))

/-! ## Reading -/

/-- The first nine digits of a fraction; the others are dropped. -/
def nanosecondsOf (digits : List Char) : Nat :=
  Nat.ofDigitChars 10 ((digits ++ List.replicate 9 '0').take 9) 0

def readFraction? : List Char → Option (Nat × List Char)
  | '.' :: rest =>
    let digits := rest.takeWhile Char.isDigit
    if digits.isEmpty then none
    else some (nanosecondsOf digits, rest.dropWhile Char.isDigit)
  | cs => some (0, cs)

/-- An offset of less than a day in whole minutes, which ends the text. -/
def readOffset? : List Char → Option Int
  | ['Z'] => some 0
  | ['z'] => some 0
  | sign :: rest => do
    if sign ≠ '+' ∧ sign ≠ '-' then none
    let (hours, rest) ← Text.fixedDigits? 2 rest
    let rest ← Text.after? ':' rest
    let (minutes, rest) ← Text.fixedDigits? 2 rest
    if rest ≠ [] ∨ 23 < hours ∨ 59 < minutes then none
    let total : Int := (hours * 60 + minutes) * 60
    return if sign = '-' then -total else total
  | [] => none

/-- The sixtieth second may follow this one: by UTC it is the last of a month. -/
def maySeeLeapSecond (t : DateTime) : Bool :=
  let utc := t.secondOfDay - t.offset
  let day := t.date.day + utc / 86400
  utc % 86400 = 86399 && (day = 0 || day = Calendar.daysIn t.date.year t.date.month)

def ofParts? (date : Date) (hour minute second nanosecond : Nat) (offset : Int) :
    Option DateTime :=
  if h : Calendar.IsTime hour minute second nanosecond offset then
    some ⟨date, hour, minute, second, nanosecond, offset, h⟩
  else none

def ofChars? (cs : List Char) : Option DateTime := do
  let ((year, month, day), cs) ← Date.readParts? cs
  -- any ASCII character may stand between date and time
  let cs ← match cs with
    | c :: rest => if c.toNat < 0x80 then some rest else none
    | [] => none
  let (hour, cs) ← Text.fixedDigits? 2 cs
  let cs ← Text.after? ':' cs
  let (minute, cs) ← Text.fixedDigits? 2 cs
  let cs ← Text.after? ':' cs
  let (second, cs) ← Text.fixedDigits? 2 cs
  let (nanosecond, cs) ← readFraction? cs
  let offset ← readOffset? cs
  let date ← Date.ofParts? year month day
  if second = 60 then
    let t ← ofParts? date hour minute 59 999999999 offset
    if t.maySeeLeapSecond then some t else none
  else
    ofParts? date hour minute second nanosecond offset

def ofText? (s : String) : Option DateTime := ofChars? s.toList

end DateTime

end RecordRules
