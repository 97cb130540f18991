import Mathlib.Algebra.Group.Int.Defs
import RecordRules.Json.Printer
import RecordRules.Json.Token
import RecordRules.Proofs.Text.Digits

/-!
# The tokens of a compact text

A compact text is cut into the tokens of the value that it was printed for
(`Json.tokens?_chars`).  Numbers other than whole ones of 64 bits are left out: rules hold none.
-/

namespace RecordRules

/-! ## Digits -/

namespace Text

/-- Only zero is written with a leading zero. -/
theorem head?_toDigits_ne {n : Nat} (hn : n ≠ 0) : (Nat.toDigits 10 n).head? ≠ some '0' := by
  induction n using Nat.strongRecOn with
  | ind n ih =>
    rw [Nat.toDigits_eq_if (by decide)]
    split
    · simpa using hn
    · next hge =>
      have hhead : (Nat.toDigits 10 (n / 10) ++ [(n % 10).digitChar]).head?
          = (Nat.toDigits 10 (n / 10)).head? := by
        rw [List.head?_append, Option.or_of_isSome]
        simp [Nat.toDigits_ne_nil]
      rw [hhead]
      exact ih (n / 10) (by omega) (by omega)

end Text

namespace Json

variable {c : Char} {s rest rest' : List Char} {j : Json}

/-! ## Strings -/

/-- A control character is written as four hexadecimal digits and read back from them. -/
theorem hexUnit?_control {n : Nat} (h : n < 0x20) :
    hexUnit? '0' '0' (hexDigit (n / 16)) (hexDigit (n % 16)) = some n := by
  revert n
  decide

/-- A short escape stands for a single character. -/
theorem lexString_short {e : Char} (h : shortEscape? e = some c) (rest : List Char) :
    lexString ('\\' :: e :: rest) = (lexString rest).map fun r => (c :: r.1, r.2) := by
  have hu : e ≠ 'u' := by
    rintro rfl
    cases h
  rw [lexString, h]
  simp [hu]

/-- The long escape of a control character stands for that character. -/
theorem lexString_control (h : c.toNat < 0x20) (rest : List Char) :
    lexString ('\\' :: 'u' :: '0' :: '0' :: hexDigit (c.toNat / 16) :: hexDigit (c.toNat % 16)
      :: rest) = (lexString rest).map fun r => (c :: r.1, r.2) := by
  have hlow : ¬ (0xdc00 ≤ c.toNat ∧ c.toNat < 0xe000) := by omega
  have hhigh : ¬ (0xd800 ≤ c.toNat ∧ c.toNat < 0xdc00) := by omega
  rw [lexString, hexUnit?_control h]
  simp only [if_neg hlow, if_neg hhigh, Char.ofNat_toNat]

/-- Any other character stands for itself. -/
theorem lexString_plain (hquote : c ≠ '"') (hslash : c ≠ '\\') (h : ¬ c.toNat < 0x20)
    (rest : List Char) :
    lexString (c :: rest) = (lexString rest).map fun r => (c :: r.1, r.2) := by
  rw [lexString, if_neg (by simp [hslash, h])]
  · exact hquote
  · exact fun _ _ _ _ _ hc => absurd hc hslash
  · exact fun _ _ hc => absurd hc hslash

/-- However a character is escaped, reading takes it back in one step. -/
theorem lexString_escapeChar (c : Char) (rest : List Char) :
    lexString (escapeChar c ++ rest) = (lexString rest).map fun r => (c :: r.1, r.2) := by
  unfold escapeChar
  split
  case h_8 =>
    -- a character without an escape of its own
    split
    · next h => exact lexString_control h rest
    · next h => exact lexString_plain ‹_› ‹_› h rest
  all_goals exact lexString_short rfl rest

/-- A text is read back from its escaped characters, up to the closing quote. -/
theorem lexString_flatMap_escapeChar (s rest : List Char) :
    lexString (s.flatMap escapeChar ++ '"' :: rest) = some (s, rest) := by
  induction s with
  | nil => rw [List.flatMap_nil, List.nil_append, lexString]
  | cons c s ih =>
    rw [List.flatMap_cons, List.append_assoc, lexString_escapeChar, ih]
    rfl

/-! ## Numbers -/

/-- What follows a whole number: nothing, or something that does not go on with it. -/
def EndsNumber (rest : List Char) : Prop :=
  ∀ c ∈ rest.head?, c.isDigit = false ∧ c ≠ '.' ∧ c ≠ 'e' ∧ c ≠ 'E'

/-- The digits of a number are read as a whole number, since they do not start with a superfluous
zero. -/
theorem lexWhole_toDigits (n : Nat) (hrest : EndsNumber rest) :
    lexWhole (Nat.toDigits 10 n ++ rest) = some (Nat.toDigits 10 n, rest) := by
  have hds : ∀ c ∈ Nat.toDigits 10 n, c.isDigit = true := fun c hc =>
    Nat.isDigit_of_mem_toDigits (by decide) (by decide) hc
  have hend : Text.EndsDigits rest := fun c hc => (hrest c hc).1
  rw [lexWhole, Text.takeWhile_isDigit hds hend, Text.dropWhile_isDigit hds hend]
  split
  · next hnil => exact absurd hnil Nat.toDigits_ne_nil
  · next c ds hzero =>
    -- only zero starts with a zero, and it has no second digit
    by_cases hn : n = 0
    · subst hn
      cases hzero
    · exact absurd (by rw [hzero]; rfl) (Text.head?_toDigits_ne hn)
  · rfl

/-- Digits that no fraction and no exponent follows make up a whole numeral. -/
theorem lexUnsigned_toDigits (negative : Bool) (n : Nat) (hrest : EndsNumber rest) :
    lexUnsigned negative (Nat.toDigits 10 n ++ rest) =
      some (⟨negative, Nat.toDigits 10 n, [], none⟩, rest) := by
  have hfraction : lexFraction rest = some ([], rest) := by
    cases rest with
    | nil => rfl
    | cons c rest =>
      obtain ⟨-, hpoint, -⟩ := hrest c rfl
      rw [lexFraction]
      simpa using hpoint
  have hexponent : lexExponent rest = some (none, rest) := by
    cases rest with
    | nil => rfl
    | cons c rest =>
      obtain ⟨-, -, he, hE⟩ := hrest c rfl
      simp [lexExponent, he, hE]
  simp [lexUnsigned, lexWhole_toDigits n hrest, hfraction, hexponent]

/-- A numeral in digits is an integer when it fits into 64 unsigned bits. -/
theorem toJson?_toDigits {n : Nat} (h : n < UInt64.size) :
    (Numeral.mk false (Nat.toDigits 10 n) [] none).toJson? = some (.int n) := by
  simp [Numeral.toJson?, Nat.ofDigitChars_ten_toDigits, h]

/-- A negated numeral is an integer when it fits into 64 signed bits. -/
theorem toJson?_neg_toDigits {n : Nat} (hpos : 0 < n) (h : n ≤ UInt64.size / 2) :
    (Numeral.mk true (Nat.toDigits 10 n) [] none).toJson? = some (.int (-n)) := by
  simp [Numeral.toJson?, Nat.ofDigitChars_ten_toDigits, hpos, h]

/-! ## Single tokens -/

/-- A character that is not blank starts a token, and the rest is read after it. -/
theorem tokens?_cons {t : Token} (hblank : isBlank c = false)
    (h : lexToken c rest = some (t, rest')) :
    tokens? (c :: rest) = (tokens? rest').map (t :: ·) := by
  rw [tokens?, hblank]
  split
  · contradiction
  · split
    · next heq =>
      rw [h] at heq
      cases heq
      rfl
    · next heq =>
      rw [h] at heq
      cases heq

theorem isBlank_of_isDigit (h : c.isDigit = true) : isBlank c = false := by
  simp only [isBlank, Bool.or_eq_false_iff, beq_eq_false_iff_ne]
  refine ⟨⟨⟨?_, ?_⟩, ?_⟩, ?_⟩ <;> rintro rfl <;> cases h

/-- A digit can only start a number. -/
theorem lexToken_of_isDigit (h : c.isDigit = true) (rest : List Char) :
    lexToken c rest =
      (lexUnsigned false (c :: rest)).bind fun r => r.1.toJson?.map fun j => (.scalar j, r.2) := by
  unfold lexToken
  split
  case h_12 => rfl
  all_goals cases h

/-- A text is one token. -/
theorem tokens?_stringChars (s : String) (rest : List Char) :
    tokens? (stringChars s ++ rest) = (tokens? rest).map (.scalar (.str s) :: ·) := by
  have hstring : lexString (s.toList.flatMap escapeChar ++ ['"'] ++ rest)
      = some (s.toList, rest) := by
    rw [List.append_assoc]
    exact lexString_flatMap_escapeChar s.toList rest
  rw [stringChars, List.cons_append, tokens?_cons rfl]
  rw [lexToken, hstring, Option.map_some, String.ofList_toList]

/-- An integer within 64 bits is one token with its sign, when no more of a number follows. -/
theorem tokens?_intChars {n : Int} (hlow : -2 ^ 63 ≤ n) (hhigh : n < 2 ^ 64)
    (hrest : EndsNumber rest) :
    tokens? (intChars n ++ rest) = (tokens? rest).map (.scalar (.int n) :: ·) := by
  unfold intChars
  split
  · next hneg =>
    have hback : -(n.natAbs : Int) = n := by omega
    rw [List.cons_append, tokens?_cons rfl]
    rw [lexToken, lexUnsigned_toDigits true n.natAbs hrest, Option.bind_some,
      toJson?_neg_toDigits (by omega) (by simp only [UInt64.size]; omega), hback]
    rfl
  · next hneg =>
    obtain ⟨k, rfl⟩ := Int.eq_ofNat_of_zero_le (Int.not_lt.1 hneg)
    have hjson := toJson?_toDigits (n := k) (by simp only [UInt64.size]; omega)
    have hlex := lexUnsigned_toDigits false k hrest
    have hdigit : ∀ c ∈ Nat.toDigits 10 k, c.isDigit = true := fun c hc =>
      Nat.isDigit_of_mem_toDigits (by decide) (by decide) hc
    obtain ⟨c, ds, hds⟩ := List.exists_cons_of_ne_nil (Nat.toDigits_ne_nil (n := k) (b := 10))
    -- the first digit alone decides which token the text starts with
    rw [hds] at hjson hlex hdigit
    have hc := hdigit c List.mem_cons_self
    rw [Int.natAbs_natCast, hds, List.cons_append, tokens?_cons (isBlank_of_isDigit hc)]
    rw [lexToken_of_isDigit hc, ← List.cons_append, hlex, Option.bind_some, hjson]
    rfl

/-! ## Whole texts -/

/-- All numbers are whole and have 64 bits, and members stand in ascending order. -/
inductive Canonical : Json → Prop where
  | null : Canonical .null
  | bool (b : Bool) : Canonical (.bool b)
  | int {n : Int} : -2 ^ 63 ≤ n → n < 2 ^ 64 → Canonical (.int n)
  | str (s : String) : Canonical (.str s)
  | arr {items : List Json} : (∀ j ∈ items, Canonical j) → Canonical (.arr items)
  | obj {members : List (String × Json)} : Entries.Ascending members →
    (∀ m ∈ members, Canonical m.2) → Canonical (.obj members)

mutual

/-- The tokens that a value is printed as. -/
def tokens : Json → List Token
  | .arr [] => [.arrayOpen, .arrayClose]
  | .arr (j :: rest) => .arrayOpen :: (tokens j ++ itemTokens rest)
  | .obj [] => [.objectOpen, .objectClose]
  | .obj ((k, j) :: rest) =>
    .objectOpen :: .scalar (.str k) :: .colon :: (tokens j ++ memberTokens rest)
  | j => [.scalar j]

def itemTokens : List Json → List Token
  | [] => [.arrayClose]
  | j :: rest => .comma :: (tokens j ++ itemTokens rest)

def memberTokens : List (String × Json) → List Token
  | [] => [.objectClose]
  | (k, j) :: rest => .comma :: .scalar (.str k) :: .colon :: (tokens j ++ memberTokens rest)

end

/-- The text of the value is cut into its tokens, whatever follows it. -/
def Lexes (j : Json) : Prop :=
  ∀ rest, EndsNumber rest → tokens? (j.chars ++ rest) = (tokens? rest).map (j.tokens ++ ·)

/-- A number before the rest of an array ends there, at a comma or at the bracket. -/
theorem endsNumber_itemChars (items : List Json) (rest : List Char) :
    EndsNumber (itemChars items ++ rest) := by
  cases items <;> rintro c ⟨⟩ <;> decide

/-- A number before the rest of an object ends there, at a comma or at the brace. -/
theorem endsNumber_memberChars (members : List (String × Json)) (rest : List Char) :
    EndsNumber (memberChars members ++ rest) := by
  rcases members with _ | ⟨⟨k, j⟩, members⟩ <;> rintro c ⟨⟩ <;> decide

/-- The items of an array give their tokens with commas between. -/
theorem tokens?_itemChars {items : List Json} (h : ∀ j ∈ items, Lexes j) (rest : List Char) :
    tokens? (itemChars items ++ rest) = (tokens? rest).map (itemTokens items ++ ·) := by
  induction items with
  | nil => exact tokens?_cons rfl rfl
  | cons j items ih =>
    obtain ⟨hj, hitems⟩ := List.forall_mem_cons.1 h
    rw [itemChars, List.cons_append, List.append_assoc, tokens?_cons rfl rfl,
      hj _ (endsNumber_itemChars items rest), ih hitems, itemTokens]
    simp [Function.comp_def]

/-- A member gives its key, a colon and the tokens of its value. -/
theorem tokens?_member (k : String) (hj : Lexes j) (hrest : EndsNumber rest) :
    tokens? (stringChars k ++ ':' :: (j.chars ++ rest)) =
      (tokens? rest).map fun ts => .scalar (.str k) :: .colon :: (j.tokens ++ ts) := by
  rw [tokens?_stringChars, tokens?_cons rfl rfl, hj rest hrest]
  simp [Function.comp_def]

/-- The members of an object give their tokens with commas between. -/
theorem tokens?_memberChars {members : List (String × Json)} (h : ∀ m ∈ members, Lexes m.2)
    (rest : List Char) :
    tokens? (memberChars members ++ rest) = (tokens? rest).map (memberTokens members ++ ·) := by
  induction members with
  | nil => exact tokens?_cons rfl rfl
  | cons m members ih =>
    obtain ⟨k, j⟩ := m
    obtain ⟨hj, hmembers⟩ := List.forall_mem_cons.1 h
    rw [memberChars, List.cons_append, List.append_assoc, tokens?_cons rfl rfl, List.cons_append,
      List.append_assoc, tokens?_member k hj (endsNumber_memberChars members rest), ih hmembers,
      memberTokens]
    simp [Function.comp_def]

/-- A compact text is cut into the tokens of the value that it was printed for. -/
theorem tokens?_chars (h : Canonical j) : Lexes j := by
  induction h with
  | null => exact fun rest _ => tokens?_cons rfl rfl
  | bool b => cases b <;> exact fun rest _ => tokens?_cons rfl rfl
  | int hlow hhigh => exact fun rest hrest => tokens?_intChars hlow hhigh hrest
  | str s => exact fun rest _ => tokens?_stringChars s rest
  | @arr items _ ih =>
    intro rest _
    cases items with
    | nil =>
      rw [chars, List.cons_append, tokens?_cons rfl rfl, List.cons_append, tokens?_cons rfl rfl]
      simp [tokens, Function.comp_def]
    | cons j items =>
      obtain ⟨hj, hitems⟩ := List.forall_mem_cons.1 ih
      rw [chars, List.cons_append, List.append_assoc, tokens?_cons rfl rfl,
        hj _ (endsNumber_itemChars items rest), tokens?_itemChars hitems, tokens]
      simp [Function.comp_def]
  | @obj members _ _ ih =>
    intro rest _
    rcases members with _ | ⟨⟨k, j⟩, members⟩
    · rw [chars, List.cons_append, tokens?_cons rfl rfl, List.cons_append, tokens?_cons rfl rfl]
      simp [tokens, Function.comp_def]
    · obtain ⟨hj, hmembers⟩ := List.forall_mem_cons.1 ih
      rw [chars, List.cons_append, List.append_assoc, tokens?_cons rfl rfl, List.cons_append,
        List.append_assoc, tokens?_member k hj (endsNumber_memberChars members rest),
        tokens?_memberChars hmembers, tokens]
      simp [Function.comp_def]

/-- The compact text of a canonical value is split into the tokens of that value. -/
theorem tokens?_toList_compact (h : Canonical j) : tokens? j.compact.toList = some j.tokens := by
  have hlex := tokens?_chars h [] nofun
  rw [List.append_nil, tokens?] at hlex
  rw [compact, String.toList_ofList, hlex, Option.map_some, List.append_nil]

end Json

end RecordRules
