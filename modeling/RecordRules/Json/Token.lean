import RecordRules.Json.Basic

/-!
# JSON tokens

A text is cut into punctuation and scalars; blanks between them are dropped.  Numbers in digits
alone are whole numbers as long as they fit 64 bits; every other number, and `-0`, is binary64.
-/

namespace RecordRules.Json

inductive Token where
  | arrayOpen
  | arrayClose
  | objectOpen
  | objectClose
  | comma
  | colon
  | scalar (j : Json)

/-! ## Strings -/

def hexValue? (c : Char) : Option Nat :=
  if c.isDigit then some (c.toNat - '0'.toNat)
  else if 'a' ≤ c ∧ c ≤ 'f' then some (c.toNat - 'a'.toNat + 10)
  else if 'A' ≤ c ∧ c ≤ 'F' then some (c.toNat - 'A'.toNat + 10)
  else none

/-- Four hexadecimal digits. -/
def hexUnit? (a b c d : Char) : Option Nat := do
  return (← hexValue? a) * 4096 + (← hexValue? b) * 256 + (← hexValue? c) * 16 + (← hexValue? d)

/-- The character of a high and a low surrogate. -/
def ofSurrogates (high low : Nat) : Char :=
  Char.ofNat (0x10000 + (high - 0xd800) * 0x400 + (low - 0xdc00))

def shortEscape? : Char → Option Char
  | '"' => some '"'
  | '\\' => some '\\'
  | '/' => some '/'
  | 'b' => some '\x08'
  | 'f' => some '\x0c'
  | 'n' => some '\n'
  | 'r' => some '\r'
  | 't' => some '\t'
  | _ => none

/-- A string after its opening quote, and what follows its closing quote. -/
def lexString : List Char → Option (List Char × List Char)
  | [] => none
  | '"' :: rest => some ([], rest)
  | '\\' :: 'u' :: a :: b :: c :: d :: rest =>
    match hexUnit? a b c d with
    | none => none
    | some unit =>
      if 0xdc00 ≤ unit ∧ unit < 0xe000 then none
      else if 0xd800 ≤ unit ∧ unit < 0xdc00 then
        match rest with
        | '\\' :: 'u' :: e :: f :: g :: h :: rest =>
          match hexUnit? e f g h with
          | none => none
          | some low =>
            if 0xdc00 ≤ low ∧ low < 0xe000 then
              (lexString rest).map fun r => (ofSurrogates unit low :: r.1, r.2)
            else none
        | _ => none
      else (lexString rest).map fun r => (Char.ofNat unit :: r.1, r.2)
  | '\\' :: e :: rest =>
    match shortEscape? e with
    | some c => (lexString rest).map fun r => (c :: r.1, r.2)
    | none => none
  | c :: rest =>
    if c = '\\' ∨ c.toNat < 0x20 then none
    else (lexString rest).map fun r => (c :: r.1, r.2)

/-- Reading a text consumes its closing quote at least. -/
theorem length_lt_of_lexString {cs s rest : List Char} (h : lexString cs = some (s, rest)) :
    rest.length < cs.length := by
  fun_induction lexString cs generalizing s rest <;>
    simp_all only [Option.map_eq_some_iff, List.length_cons, Option.some.injEq, Prod.mk.injEq,
      reduceCtorEq, Prod.exists] <;>
    grind

/-! ## Numbers -/

/-- The text of a number. -/
structure Numeral where
  negative : Bool
  whole : List Char
  fraction : List Char
  /-- Sign and digits of the power of ten. -/
  exponent : Option (Bool × List Char)

/-- The digits after a point, if there is one. -/
def lexFraction : List Char → Option (List Char × List Char)
  | '.' :: rest =>
    let digits := rest.takeWhile Char.isDigit
    if digits.isEmpty then none else some (digits, rest.dropWhile Char.isDigit)
  | cs => some ([], cs)

/-- Sign and digits of an exponent, if there is one. -/
def lexExponent : List Char → Option (Option (Bool × List Char) × List Char)
  | c :: rest =>
    if c = 'e' ∨ c = 'E' then
      let (negative, rest) := match rest with
        | '+' :: rest => (false, rest)
        | '-' :: rest => (true, rest)
        | rest => (false, rest)
      let digits := rest.takeWhile Char.isDigit
      if digits.isEmpty then none
      else some (some (negative, digits), rest.dropWhile Char.isDigit)
    else some (none, c :: rest)
  | [] => some (none, [])

/-- No digit may follow a leading zero. -/
def lexWhole (cs : List Char) : Option (List Char × List Char) :=
  let digits := cs.takeWhile Char.isDigit
  match digits with
  | [] => none
  | '0' :: _ :: _ => none
  | _ => some (digits, cs.dropWhile Char.isDigit)

def lexUnsigned (negative : Bool) (cs : List Char) : Option (Numeral × List Char) := do
  let (whole, cs) ← lexWhole cs
  let (fraction, cs) ← lexFraction cs
  let (exponent, cs) ← lexExponent cs
  return (⟨negative, whole, fraction, exponent⟩, cs)

def Numeral.toFloat? (n : Numeral) : Option Json :=
  let tens : Int := match n.exponent with
    | none => 0
    | some (negative, digits) =>
      let e := Nat.ofDigitChars 10 digits 0
      if negative then -(e : Int) else e
  (Binary64.ofDigits? n.negative n.whole n.fraction tens).map .float

def Numeral.toJson? (n : Numeral) : Option Json :=
  if n.fraction.isEmpty && n.exponent.isNone then
    let k := Nat.ofDigitChars 10 n.whole 0
    if n.negative then
      if 0 < k ∧ k ≤ UInt64.size / 2 then some (.int (-k)) else n.toFloat?
    else if k < UInt64.size then some (.int k)
    else n.toFloat?
  else n.toFloat?

theorem length_dropWhile_le {α : Type} (p : α → Bool) (l : List α) :
    (l.dropWhile p).length ≤ l.length :=
  (List.dropWhile_sublist p).length_le

/-- A whole number has a digit, so reading one consumes something. -/
theorem length_lt_of_lexWhole {cs ds rest : List Char} (h : lexWhole cs = some (ds, rest)) :
    rest.length < cs.length := by
  simp only [lexWhole] at h
  split at h
  · simp at h
  · simp at h
  · next hne _ =>
    simp only [Option.some.injEq, Prod.mk.injEq] at h
    obtain ⟨-, rfl⟩ := h
    have hlen : (cs.takeWhile Char.isDigit).length + (cs.dropWhile Char.isDigit).length
        = cs.length := by
      rw [← List.length_append, List.takeWhile_append_dropWhile]
    have : 0 < (cs.takeWhile Char.isDigit).length :=
      List.length_pos_iff.2 hne
    omega

/-- A fraction may be missing, and then nothing is consumed. -/
theorem length_le_of_lexFraction {cs ds rest : List Char}
    (h : lexFraction cs = some (ds, rest)) : rest.length ≤ cs.length := by
  unfold lexFraction at h
  split at h
  · dsimp only at h
    split at h
    · simp at h
    · simp only [Option.some.injEq, Prod.mk.injEq] at h
      obtain ⟨-, rfl⟩ := h
      exact Nat.le_succ_of_le (length_dropWhile_le _ _)
  · simp_all

/-- An exponent may be missing, and then nothing is consumed. -/
theorem length_le_of_lexExponent {cs rest : List Char} {e : Option (Bool × List Char)}
    (h : lexExponent cs = some (e, rest)) : rest.length ≤ cs.length := by
  unfold lexExponent at h
  split at h
  · next c tail =>
    split at h
    · split at h
      next rest' heq =>
      dsimp only at h
      split at h
      · simp at h
      · simp only [Option.some.injEq, Prod.mk.injEq] at h
        obtain ⟨-, rfl⟩ := h
        refine Nat.le_trans (length_dropWhile_le _ _) ?_
        split at heq <;> simp_all <;> omega
    · simp_all
  · simp_all

/-- A number is consumed from its first digit on. -/
theorem length_lt_of_lexUnsigned {neg : Bool} {cs rest : List Char} {n : Numeral}
    (h : lexUnsigned neg cs = some (n, rest)) : rest.length < cs.length := by
  simp only [lexUnsigned, Option.bind_eq_bind, Option.bind_eq_some_iff, Option.pure_def,
    Option.some.injEq, Prod.mk.injEq, Prod.exists] at h
  obtain ⟨w, r, hw, f, r', hf, e, r'', he, -, rfl⟩ := h
  have := length_lt_of_lexWhole hw
  have := length_le_of_lexFraction hf
  have := length_le_of_lexExponent he
  omega

/-! ## Texts -/

def isBlank (c : Char) : Bool := c == ' ' || c == '\n' || c == '\t' || c == '\r'

/-- The token that starts with `c`, and what follows it. -/
def lexToken (c : Char) (rest : List Char) : Option (Token × List Char) :=
  match c with
  | '[' => some (.arrayOpen, rest)
  | ']' => some (.arrayClose, rest)
  | '\x7b' => some (.objectOpen, rest)
  | '\x7d' => some (.objectClose, rest)
  | ',' => some (.comma, rest)
  | ':' => some (.colon, rest)
  | '"' => (lexString rest).map fun r => (.scalar (.str (String.ofList r.1)), r.2)
  | 't' => match rest with
    | 'r' :: 'u' :: 'e' :: rest => some (.scalar (.bool true), rest)
    | _ => none
  | 'f' => match rest with
    | 'a' :: 'l' :: 's' :: 'e' :: rest => some (.scalar (.bool false), rest)
    | _ => none
  | 'n' => match rest with
    | 'u' :: 'l' :: 'l' :: rest => some (.scalar .null, rest)
    | _ => none
  | '-' => (lexUnsigned true rest).bind fun r => r.1.toJson?.map fun j => (.scalar j, r.2)
  | c => (lexUnsigned false (c :: rest)).bind fun r => r.1.toJson?.map fun j => (.scalar j, r.2)

/-- The token after a character never gives text back, so that reading tokens ends. -/
theorem length_le_of_lexToken {c : Char} {cs rest : List Char} {t : Token}
    (h : lexToken c cs = some (t, rest)) : rest.length ≤ cs.length := by
  unfold lexToken at h
  split at h
  case h_7 =>
    simp only [Option.map_eq_some_iff, Prod.mk.injEq, Prod.exists] at h
    obtain ⟨s, r, hs, -, rfl⟩ := h
    exact Nat.le_of_lt (length_lt_of_lexString hs)
  case h_11 =>
    simp only [Option.bind_eq_some_iff, Option.map_eq_some_iff, Prod.mk.injEq, Prod.exists] at h
    obtain ⟨n, r, hn, j, -, -, rfl⟩ := h
    exact Nat.le_of_lt (length_lt_of_lexUnsigned hn)
  case h_12 =>
    simp only [Option.bind_eq_some_iff, Option.map_eq_some_iff, Prod.mk.injEq, Prod.exists] at h
    obtain ⟨n, r, hn, j, -, -, rfl⟩ := h
    have := length_lt_of_lexUnsigned hn
    simp only [List.length_cons] at this
    omega
  all_goals
    first
      | (split at h <;> simp_all <;> omega)
      | simp_all

def tokens? : List Char → Option (List Token)
  | [] => some []
  | c :: rest =>
    if isBlank c then tokens? rest
    else
      match _h : lexToken c rest with
      | some (t, rest) => (tokens? rest).map (t :: ·)
      | none => none
termination_by cs => cs.length
decreasing_by
  · simp
  · have := length_le_of_lexToken _h
    simp only [List.length_cons]
    omega

end RecordRules.Json
