import RecordRules.Decimal.Basic
import RecordRules.Text.Digits

/-!
# Decimal text

A decimal is written with all digits of its scale: `1.50` keeps its last zero, and a zero its sign.
Reading takes a sign, digits with at most one point, underscores after the first digit, and an
exponent; a zero that is read has no sign.

Digits beyond the 28th place, or beyond what 96 bits hold, are rounded: the first of them decides
and a five goes up.  After it only digits and underscores may follow, and these do not count.  An
exponent that leaves more than 28 places rounds the number again.  `ofExactText?` refuses what
would have to be rounded.
-/

namespace RecordRules.Decimal

/-- Digits with a point before the last `scale` of them. -/
def pointed (digits : List Char) (scale : Nat) : List Char :=
  if scale = 0 then digits
  else digits.take (digits.length - scale) ++ '.' :: digits.drop (digits.length - scale)

def chars (d : Decimal) : List Char :=
  let body := pointed (Text.paddedDigits (d.scale + 1) d.magnitude) d.scale
  if d.negative then '-' :: body else body

def text (d : Decimal) : String := String.ofList d.chars

/-- What has been read of an unsigned decimal. -/
structure Progress where
  coefficient : Nat
  scale : Nat
  pointSeen : Bool
  digitSeen : Bool

def Progress.start : Progress := ⟨0, 0, false, false⟩

def digit? (c : Char) : Option Nat :=
  if c.isDigit then some (c.toNat - '0'.toNat) else none

/-- What becomes of digits that find no room. -/
inductive Excess where
  | rounded
  | refused
deriving DecidableEq

/-- Coefficient and scale after the first digit that finds no room. -/
def roundAt (coefficient scale digit : Nat) : Option (Nat × Nat) :=
  if digit < 5 then some (coefficient, scale)
  else if coefficient + 1 < limit then some (coefficient + 1, scale)
  else if scale = 0 then none
  else some ((coefficient + 5) / 10, scale - 1)

/-- From here on a coefficient is no longer extended within 64 bits. -/
def wideFrom : Nat := UInt64.size / 10 - 255

/-- The first digit of what follows the 28th place.  An underscore there stands for a zero, or is
passed over once the coefficient has become wide. -/
def decidingDigit (coefficient : Nat) (cs : List Char) : Nat :=
  let cs := if coefficient / 10 < wideFrom then cs else cs.dropWhile (· == '_')
  (cs.head?.bind digit?).getD 0

/-- What may follow the digit that decides the rounding. -/
def isTail (cs : List Char) : Bool := cs.all fun c => c.isDigit || c == '_'

/-- Round off a tail, of which `digit` is the first digit. -/
def roundTail? (excess : Excess) (coefficient scale digit : Nat) (tail : List Char) :
    Option (Nat × Nat) :=
  if excess = .rounded && isTail tail then roundAt coefficient scale digit else none

/-- Coefficient and scale of an unsigned decimal without exponent. -/
def readDigits? (excess : Excess) (p : Progress) : List Char → Option (Nat × Nat)
  | [] => if p.digitSeen then some (p.coefficient, p.scale) else none
  | c :: rest =>
    if p.scale == maxScale then
      roundTail? excess p.coefficient p.scale (decidingDigit p.coefficient (c :: rest)) (c :: rest)
    else
      match digit? c with
      | some digit =>
        let next := p.coefficient * 10 + digit
        if next < limit then
          readDigits? excess
            ⟨next, if p.pointSeen then p.scale + 1 else p.scale, p.pointSeen, true⟩ rest
        else if p.pointSeen then roundTail? excess p.coefficient p.scale digit rest
        else none
      | none =>
        if c = '.' && !p.pointSeen then readDigits? excess { p with pointSeen := true } rest
        else if c = '_' && p.digitSeen then readDigits? excess p rest
        else none

/-- A decimal without exponent. -/
def ofPlain? (excess : Excess) : List Char → Option Decimal
  | '-' :: cs => (readDigits? excess .start cs).bind fun (c, s) => ofParts? (-c) s
  | '+' :: cs => (readDigits? excess .start cs).bind fun (c, s) => ofParts? c s
  | cs => (readDigits? excess .start cs).bind fun (c, s) => ofParts? c s

/-- A 32-bit number in digits, with or without a plus sign. -/
def readExponent? (cs : List Char) : Option Nat :=
  let digits := match cs with
    | '+' :: ds => ds
    | ds => ds
  if digits.isEmpty || !digits.all Char.isDigit then none
  else
    let n := Nat.ofDigitChars 10 digits 0
    if n < UInt32.size then some n else none

/-- Move the point to the left by at most 28 places; of the places that then are too many the
first decides, and a five goes away from zero. -/
def shiftLeft? (excess : Excess) (d : Decimal) (places : Nat) : Option Decimal :=
  if maxScale < places then none
  else if d.scale + places ≤ maxScale then ofParts? d.coefficient (d.scale + places)
  else
    match excess with
    | .refused => none
    | .rounded =>
      let dropped := Nat.pow 10 (d.scale + places - maxScale)
      ofParts? (d.coefficient.sign * roundHalfUp d.magnitude dropped) maxScale

/-- Move the point to the right by at most 28 places or within the scale; past the last digit the
number is whole. -/
def shiftRight? (d : Decimal) (places : Nat) : Option Decimal :=
  if places ≤ d.scale then ofParts? d.coefficient (d.scale - places)
  else if maxScale < places then none
  else ofParts? (d.coefficient * Nat.pow 10 (places - d.scale)) 0

def isExponentMark (c : Char) : Bool := c == 'e' || c == 'E'

def ofChars? (excess : Excess) (cs : List Char) : Option Decimal :=
  match cs.dropWhile (!isExponentMark ·) with
  | [] => ofPlain? excess cs
  | _ :: exponent => do
    let d ← ofPlain? excess (cs.takeWhile (!isExponentMark ·))
    match exponent with
    | '-' :: digits => shiftLeft? excess d (← readExponent? digits)
    | digits => shiftRight? d (← readExponent? digits)

/-- The number with as many of its digits as a decimal holds. -/
def ofText? (s : String) : Option Decimal := ofChars? .rounded s.toList

/-- The number, if a decimal holds all its digits. -/
def ofExactText? (s : String) : Option Decimal := ofChars? .refused s.toList

end RecordRules.Decimal
