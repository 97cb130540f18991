import RecordRules.Decimal.Text
import RecordRules.Proofs.Decimal.Worth
import RecordRules.Proofs.Text.Digits

/-!
# Decimals that are read back

The text of a decimal stands for this decimal, with its scale, except that a zero is read without
sign (`Decimal.ofText?_text`).  No digit of it is in excess, so both ways of reading agree on it.
No text at all stands for a zero with a sign (`Decimal.isNegativeZero_of_ofChars?`).
-/

namespace RecordRules.Decimal

open Text

variable {d : Decimal} {excess : Excess} {ds rest : List Char}

/-! ## The sign of a zero -/

/-- The decimal that is read back: a zero has lost its sign. -/
def asRead (d : Decimal) : Decimal := { d with negative := d.negative && d.magnitude != 0 }

/-- Every other decimal is read back as it is. -/
theorem asRead_of_not_isNegativeZero (h : d.isNegativeZero = false) : d.asRead = d := by
  obtain ⟨negative, magnitude, scale, hmagnitude, hscale⟩ := d
  simp only [isNegativeZero, asRead, mk.injEq, and_true] at h ⊢
  cases negative <;> simp_all

/-- The sign of a zero is all that gets lost, so the coefficient stays. -/
theorem coefficient_asRead (d : Decimal) : d.asRead.coefficient = d.coefficient := by
  unfold coefficient asRead
  by_cases hzero : d.magnitude = 0 <;> simp [hzero]

/-- A decimal that is read back is worth the same. -/
theorem asRead_beq (d : Decimal) : (d.asRead == d) = true := by
  rw [beq_iff, worth, coefficient_asRead]
  rfl

/-- The parts of a decimal make it up again, but for the sign of a zero. -/
theorem ofParts?_coefficient (d : Decimal) :
    ofParts? d.coefficient d.scale = some d.asRead := by
  have habs : d.coefficient.natAbs = d.magnitude := by
    unfold coefficient
    split <;> simp
  have hsign : decide (d.coefficient < 0) = (d.negative && d.magnitude != 0) := by
    rw [Bool.eq_iff_iff]
    cases hnegative : d.negative <;> simp [coefficient, hnegative]
    omega
  have hroom : d.coefficient.natAbs < limit ∧ d.scale ≤ 28 := habs ▸ ⟨d.magnitude_lt, d.scale_le⟩
  rw [ofParts?, dif_pos hroom]
  simp only [asRead, habs, hsign]

/-- Parts that are put together never make a negative zero, since the sign comes with the
coefficient. -/
theorem isNegativeZero_of_ofParts? {c : Int} {s : Nat} (h : ofParts? c s = some d) :
    d.isNegativeZero = false := by
  unfold ofParts? at h
  split at h
  · obtain rfl := Option.some.inj h
    simp only [isNegativeZero, Bool.and_eq_false_imp, decide_eq_true_eq, beq_eq_false_iff_ne]
    omega
  · cases h

/-! ## Digits in progress -/

/-- A digit is read as what it is worth. -/
theorem digit?_of_isDigit {c : Char} (h : c.isDigit = true) :
    digit? c = some (c.toNat - '0'.toNat) := if_pos h

/-- A number does not get smaller by more digits. -/
theorem le_ofDigitChars (ds : List Char) (n : Nat) : n ≤ Nat.ofDigitChars 10 ds n := by
  rw [Nat.ofDigitChars_eq_ofDigitChars_zero]
  have hpow : 1 * n ≤ 10 ^ ds.length * n := Nat.mul_le_mul_right n (Nat.pow_pos (by decide))
  omega

/-- Digits for which there is room are appended to what has been read. -/
theorem readDigits?_append (hds : ∀ c ∈ ds, c.isDigit = true) {coefficient scale : Nat}
    {pointSeen digitSeen : Bool} (hroom : scale + (if pointSeen then ds.length else 1) ≤ maxScale)
    (hlimit : Nat.ofDigitChars 10 ds coefficient < limit) :
    readDigits? excess ⟨coefficient, scale, pointSeen, digitSeen⟩ (ds ++ rest) =
      readDigits? excess ⟨Nat.ofDigitChars 10 ds coefficient,
        if pointSeen then scale + ds.length else scale, pointSeen, digitSeen || !ds.isEmpty⟩
        rest := by
  induction ds generalizing coefficient scale digitSeen with
  | nil => simp
  | cons c ds ih =>
    obtain ⟨hc, hds⟩ := List.forall_mem_cons.1 hds
    rw [Nat.ofDigitChars_cons, Nat.mul_comm] at hlimit
    have hscale : (scale == maxScale) = false := by
      rw [beq_eq_false_iff_ne]
      cases pointSeen <;> simp at hroom <;> omega
    have hroom : (if pointSeen then scale + 1 else scale) +
        (if pointSeen then ds.length else 1) ≤ maxScale := by
      cases pointSeen <;> simp at hroom ⊢ <;> omega
    have hnext : coefficient * 10 + (c.toNat - '0'.toNat) < limit :=
      Nat.lt_of_le_of_lt (le_ofDigitChars ds _) hlimit
    rw [List.cons_append, readDigits?]
    simp only [hscale, digit?_of_isDigit hc, hnext, if_true, Bool.false_eq_true, if_false]
    rw [ih hds hroom hlimit, Nat.ofDigitChars_cons, Nat.mul_comm 10 coefficient]
    cases pointSeen <;> simp [Nat.add_assoc, Nat.add_comm 1]

/-! ## The whole text -/

/-- A number in digits with a point before the last `scale` of them. -/
theorem readDigits?_pointed (hds : ∀ c ∈ ds, c.isDigit = true) {scale : Nat}
    (hlength : scale < ds.length) (hscale : scale ≤ maxScale)
    (hlimit : Nat.ofDigitChars 10 ds 0 < limit) :
    readDigits? excess .start (pointed ds scale) = some (Nat.ofDigitChars 10 ds 0, scale) := by
  have hwhole : ∀ c ∈ ds.take (ds.length - scale), c.isDigit = true := fun c hc =>
    hds c (List.mem_of_mem_take hc)
  have hfraction : ∀ c ∈ ds.drop (ds.length - scale), c.isDigit = true := fun c hc =>
    hds c (List.mem_of_mem_drop hc)
  have hvalue : Nat.ofDigitChars 10 (ds.drop (ds.length - scale))
      (Nat.ofDigitChars 10 (ds.take (ds.length - scale)) 0) = Nat.ofDigitChars 10 ds 0 := by
    rw [← Nat.ofDigitChars_append, List.take_append_drop]
  have hne : ds.take (ds.length - scale) ≠ [] := by
    rw [← List.length_pos_iff, List.length_take]
    omega
  have hend : (ds.drop (ds.length - scale)).length = scale := by
    rw [List.length_drop]
    omega
  -- without a scale there is no point; else the digits before it are read, then those behind
  unfold pointed Progress.start
  split
  · next hzero =>
    subst hzero
    rw [← List.append_nil ds, readDigits?_append hds (by simp [maxScale]) hlimit]
    have hds : ds ≠ [] := List.length_pos_iff.1 hlength
    simp [readDigits?, hds]
  · have hpart := Nat.lt_of_le_of_lt (le_ofDigitChars _ _) (hvalue ▸ hlimit)
    rw [readDigits?_append hwhole (by simp [maxScale]) hpart, readDigits?]
    have hpoint : digit? '.' = none := rfl
    have hstart : ((0 : Nat) == maxScale) = false := rfl
    simp only [Bool.false_eq_true, if_false, hstart, hpoint, Bool.not_false, Bool.and_true,
      decide_true, if_true]
    rw [← List.append_nil (ds.drop _),
      readDigits?_append hfraction (by simp [hend, hscale]) (hvalue ▸ hlimit), hvalue, readDigits?]
    simp [hne, hend]

/-- The text without sign. -/
def body (d : Decimal) : List Char :=
  pointed (paddedDigits (d.scale + 1) d.magnitude) d.scale

/-- A decimal is written with its sign in front, also a negative zero. -/
theorem chars_of_negative (h : d.negative = true) : d.chars = '-' :: d.body := if_pos h

/-- A positive decimal is written without a sign. -/
theorem chars_of_not_negative (h : d.negative = false) : d.chars = d.body :=
  if_neg (Bool.eq_false_iff.1 h)

/-- The digits that are written give back magnitude and scale, however an excess of digits is
treated. -/
theorem readDigits?_body (excess : Excess) (d : Decimal) :
    readDigits? excess .start d.body = some (d.magnitude, d.scale) := by
  have hlimit := d.magnitude_lt
  rw [← ofDigitChars_paddedDigits (d.scale + 1) d.magnitude] at hlimit
  rw [body, readDigits?_pointed (fun c hc => isDigit_of_mem_paddedDigits hc)
    (le_length_paddedDigits _ _) d.scale_le hlimit, ofDigitChars_paddedDigits]

/-- Setting the point adds no character but the point. -/
theorem mem_pointed {c : Char} {scale : Nat} (h : c ∈ pointed ds scale) : c = '.' ∨ c ∈ ds := by
  unfold pointed at h
  split at h
  · exact .inr h
  · rcases List.mem_append.1 h with h | h
    · exact .inr (List.mem_of_mem_take h)
    · exact (List.mem_cons.1 h).imp_right List.mem_of_mem_drop

/-- A decimal without its sign consists of digits and perhaps a point. -/
theorem mem_body {c : Char} (h : c ∈ d.body) : c = '.' ∨ c.isDigit = true :=
  (mem_pointed h).imp_right isDigit_of_mem_paddedDigits

/-- No sign stands before the digits. -/
theorem ofPlain?_body (excess : Excess) (d : Decimal) :
    ofPlain? excess d.body = ofParts? d.magnitude d.scale := by
  have hread := readDigits?_body excess d
  have hmem := fun c => @mem_body d c
  cases hbody : d.body with
  | nil => simp [hbody, Progress.start, readDigits?] at hread
  | cons c cs =>
    rw [hbody] at hread hmem
    have hc := hmem c (.head _)
    unfold ofPlain?
    split
    · next h => cases h; simp at hc
    · next h => cases h; simp at hc
    · rw [hread]
      rfl

/-- The characters of a decimal are read back without looking for an exponent. -/
theorem ofPlain?_chars (excess : Excess) (d : Decimal) :
    ofPlain? excess d.chars = some d.asRead := by
  rw [← ofParts?_coefficient, coefficient]
  cases hnegative : d.negative with
  | true =>
    rw [chars_of_negative hnegative, ofPlain?, readDigits?_body]
    rfl
  | false =>
    rw [chars_of_not_negative hnegative, ofPlain?_body]
    rfl

/-- A decimal is never written with an exponent. -/
theorem not_isExponentMark_of_mem_chars {c : Char} (h : c ∈ d.chars) :
    isExponentMark c = false := by
  have hbody : c = '-' ∨ c ∈ d.body := by
    unfold chars at h
    split at h
    · exact List.mem_cons.1 h
    · exact .inr h
  rcases hbody with rfl | hbody
  · rfl
  · rcases mem_body hbody with rfl | hdigit
    · rfl
    · by_contra hmark
      simp only [isExponentMark, Bool.not_eq_false, Bool.or_eq_true, beq_iff_eq] at hmark
      rcases hmark with rfl | rfl <;> cases hdigit

/-- The characters of a decimal are read back. -/
theorem ofChars?_chars (excess : Excess) (d : Decimal) :
    ofChars? excess d.chars = some d.asRead := by
  have hplain : d.chars.dropWhile (!isExponentMark ·) = [] :=
    List.dropWhile_eq_nil_iff.2 fun c hc => by simp [not_isExponentMark_of_mem_chars hc]
  rw [ofChars?, hplain]
  exact ofPlain?_chars excess d

/-- A decimal is read back from its text, a zero without sign. -/
theorem ofText?_text (d : Decimal) : ofText? d.text = some d.asRead := by
  rw [ofText?, text, String.toList_ofList, ofChars?_chars]

/-! ## What is read -/

/-- Plain characters are never read as a negative zero. -/
theorem isNegativeZero_of_ofPlain? {cs : List Char} (h : ofPlain? excess cs = some d) :
    d.isNegativeZero = false := by
  unfold ofPlain? at h
  split at h
  all_goals
    obtain ⟨⟨c, s⟩, -, h⟩ := Option.bind_eq_some_iff.1 h
    exact isNegativeZero_of_ofParts? h

/-- Neither does a positive exponent make one. -/
theorem isNegativeZero_of_shiftLeft? {e : Decimal} {places : Nat}
    (h : shiftLeft? excess e places = some d) : d.isNegativeZero = false := by
  unfold shiftLeft? at h
  split at h
  · cases h
  · split at h
    · exact isNegativeZero_of_ofParts? h
    · split at h
      · cases h
      · exact isNegativeZero_of_ofParts? h

/-- Nor does a negative exponent. -/
theorem isNegativeZero_of_shiftRight? {e : Decimal} {places : Nat}
    (h : shiftRight? e places = some d) : d.isNegativeZero = false := by
  unfold shiftRight? at h
  split at h
  · exact isNegativeZero_of_ofParts? h
  · split at h
    · cases h
    · exact isNegativeZero_of_ofParts? h

/-- A zero that is read has no sign, whatever the text is. -/
theorem isNegativeZero_of_ofChars? {cs : List Char} (h : ofChars? excess cs = some d) :
    d.isNegativeZero = false := by
  unfold ofChars? at h
  split at h
  · exact isNegativeZero_of_ofPlain? h
  · obtain ⟨e, -, h⟩ := Option.bind_eq_some_iff.1 h
    split at h
    · obtain ⟨places, -, h⟩ := Option.bind_eq_some_iff.1 h
      exact isNegativeZero_of_shiftLeft? h
    · obtain ⟨places, -, h⟩ := Option.bind_eq_some_iff.1 h
      exact isNegativeZero_of_shiftRight? h

end RecordRules.Decimal
