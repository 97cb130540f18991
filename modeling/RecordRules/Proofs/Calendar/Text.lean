import RecordRules.Calendar.DateTime
import RecordRules.Proofs.Text.Digits

/-!
# Dates and points in time that are read back

The text of a date stands for this date, and the text of a point in time, where it has one, for
this point at the same offset.  Every point in time that is read has a text.
-/

namespace RecordRules

open Text

/-! ## Dates -/

namespace Date

/-- Two digits are enough for a month. -/
theorem month_lt (d : Date) : d.month < 10 ^ 2 := by
  obtain ⟨-, -, -, hmonth, -⟩ := d.isDate
  omega

/-- Two digits are enough for a day. -/
theorem day_lt (d : Date) : d.day < 10 ^ 2 := by
  obtain ⟨-, -, -, -, -, hday⟩ := d.isDate
  have hdays : Calendar.daysIn d.year d.month ≤ 31 := by
    unfold Calendar.daysIn
    split <;> split <;> omega
  omega

/-- Four digits are enough for a year before its sign. -/
theorem natAbs_year_lt (d : Date) : d.year.natAbs < 10 ^ 4 := by
  obtain ⟨hlow, hhigh, -⟩ := d.isDate
  omega

/-- A date-time is made up of its parts. -/
@[simp] theorem ofParts?_self (d : Date) : ofParts? d.year d.month d.day = some d :=
  dif_pos d.isDate

/-- The parts of a date are kept in it. -/
theorem year_of_ofParts? {year : Int} {month day : Nat} {d : Date}
    (h : ofParts? year month day = some d) : d.year = year := by
  unfold ofParts? at h
  split at h
  · obtain rfl := Option.some.inj h
    rfl
  · cases h

/-- The text without sign. -/
def body (d : Date) : List Char :=
  paddedDigits 4 d.year.natAbs ++ '-' :: paddedDigits 2 d.month ++ '-' :: paddedDigits 2 d.day

/-- A date without its sign is read back in its parts. -/
theorem readParts?_body (d : Date) (rest : List Char) :
    readParts? (d.body ++ rest) = some ((d.year.natAbs, d.month, d.day), rest) := by
  simp only [readParts?, body, List.append_assoc, List.cons_append,
    fixedDigits?_paddedDigits (by decide) d.natAbs_year_lt,
    fixedDigits?_paddedDigits (by decide) d.month_lt,
    fixedDigits?_paddedDigits (by decide) d.day_lt, after?_cons, Option.bind_eq_bind,
    Option.bind_some, Option.pure_def]

/-- The text starts with a digit unless it starts with a sign. -/
theorem exists_body_eq_cons (d : Date) : ∃ c cs, d.body = c :: cs ∧ c.isDigit = true := by
  have hlength := length_paddedDigits (by decide) d.natAbs_year_lt
  have hdigit : ∀ c ∈ paddedDigits 4 d.year.natAbs, c.isDigit = true := fun c hc =>
    isDigit_of_mem_paddedDigits hc
  unfold body
  cases hyear : paddedDigits 4 d.year.natAbs with
  | nil => simp [hyear] at hlength
  | cons c cs => exact ⟨c, _, rfl, hdigit c (hyear ▸ .head _)⟩

/-- A year before zero is written with a sign. -/
theorem chars_of_neg {d : Date} (h : d.year < 0) : d.chars = '-' :: d.body := if_pos h

/-- Other years are written without one. -/
theorem chars_of_nonneg {d : Date} (h : 0 ≤ d.year) : d.chars = d.body := if_neg (by omega)

/-- Every date is read back from its characters. -/
theorem ofChars?_chars (d : Date) : ofChars? d.chars = some d := by
  have hparts := d.readParts?_body []
  rw [List.append_nil] at hparts
  by_cases hyear : d.year < 0
  · have hneg : -(d.year.natAbs : Int) = d.year := by omega
    rw [chars_of_neg hyear]
    simp only [ofChars?, hparts, if_true, hneg, ofParts?_self]
  · have hnat : (d.year.natAbs : Int) = d.year := by omega
    obtain ⟨c, cs, hbody, hc⟩ := d.exists_body_eq_cons
    rw [chars_of_nonneg (by omega), hbody]
    rw [hbody] at hparts
    unfold ofChars?
    split
    next negative unsigned heq =>
    split at heq
    · next h => cases h; simp at hc
    · next h => cases h; simp at hc
    · cases heq
      simp only [hparts, Bool.false_eq_true, if_false, hnat, ofParts?_self]

/-- A date is read back from its text. -/
theorem ofText?_text (d : Date) : ofText? d.text = some d := by
  rw [ofText?, text, String.toList_ofList, ofChars?_chars]

end Date

/-! ## Points in time -/

namespace DateTime

variable {t : DateTime}

/-! ### The fraction of a second -/

/-- The digits that are not written are zeros. -/
theorem exists_paddedDigits_eq (t : DateTime) :
    ∃ k, paddedDigits 9 t.nanosecond = t.fractionDigits ++ List.replicate k '0' := by
  let digits := paddedDigits 9 t.nanosecond
  let zeros := digits.reverse.takeWhile (· == '0')
  have hzeros : zeros = List.replicate zeros.length '0' :=
    List.eq_replicate_iff.2 ⟨rfl, fun c hc => by simpa using List.mem_takeWhile_imp hc⟩
  refine ⟨zeros.length, ?_⟩
  calc digits = (zeros ++ digits.reverse.dropWhile (· == '0')).reverse := by
        rw [List.takeWhile_append_dropWhile, List.reverse_reverse]
    _ = t.fractionDigits ++ zeros.reverse := List.reverse_append
    _ = t.fractionDigits ++ List.replicate zeros.length '0' := by
        rw [hzeros, List.reverse_replicate, List.length_replicate]

/-- Nine digits are enough for the fraction of a second. -/
theorem nanosecond_lt (t : DateTime) : t.nanosecond < 10 ^ 9 := t.isTime.2.2.2.1

/-- The digits of a fraction stand for its nanoseconds, although zeros at the end are left out. -/
theorem nanosecondsOf_fractionDigits (t : DateTime) :
    nanosecondsOf t.fractionDigits = t.nanosecond := by
  obtain ⟨k, hk⟩ := t.exists_paddedDigits_eq
  have hlength : t.fractionDigits.length + k = 9 := by
    have := length_paddedDigits (by decide) t.nanosecond_lt
    rwa [hk, List.length_append, List.length_replicate] at this
  have htake : (t.fractionDigits ++ List.replicate 9 '0').take 9 = paddedDigits 9 t.nanosecond := by
    have hmin : min (9 - t.fractionDigits.length) 9 = k := by omega
    rw [hk, List.take_append, List.take_of_length_le (by omega), List.take_replicate, hmin]
  rw [nanosecondsOf, htake, ofDigitChars_paddedDigits]

/-- A fraction is written in digits. -/
theorem isDigit_of_mem_fractionDigits {c : Char} (h : c ∈ t.fractionDigits) :
    c.isDigit = true := by
  obtain ⟨k, hk⟩ := t.exists_paddedDigits_eq
  exact isDigit_of_mem_paddedDigits (hk ▸ List.mem_append_left _ h)

/-- A fraction that is not zero is written with at least one digit. -/
theorem fractionDigits_ne_nil (h : t.nanosecond ≠ 0) : t.fractionDigits ≠ [] := by
  intro hnil
  apply h
  rw [← nanosecondsOf_fractionDigits, hnil]
  decide

/-- A fraction of zero is not written. -/
def fractionChars (t : DateTime) : List Char :=
  if t.nanosecond = 0 then [] else '.' :: t.fractionDigits

/-- A fraction is read back, or found missing when it is zero and not written. -/
theorem readFraction?_fractionChars (t : DateTime) {rest : List Char} (hrest : EndsDigits rest)
    (hpoint : rest.head? ≠ some '.') :
    readFraction? (t.fractionChars ++ rest) = some (t.nanosecond, rest) := by
  unfold fractionChars
  split
  · next hzero =>
    rw [List.nil_append, hzero]
    unfold readFraction?
    split
    · exact absurd rfl hpoint
    · rfl
  · next hne =>
    have hdigits : ∀ c ∈ t.fractionDigits, c.isDigit = true := fun c hc =>
      isDigit_of_mem_fractionDigits hc
    simp [readFraction?, takeWhile_isDigit hdigits hrest, dropWhile_isDigit hdigits hrest,
      fractionDigits_ne_nil hne, nanosecondsOf_fractionDigits]

/-! ### The offset -/

/-- An offset of zero is written as a letter. -/
def zoneChars (t : DateTime) : List Char :=
  if t.offset = 0 then ['Z'] else offsetChars t.offset

/-- An offset in whole minutes is read back. -/
theorem readOffset?_zoneChars (hday : t.offset.natAbs < 24 * 3600)
    (hwhole : t.offset.natAbs % 60 = 0) : readOffset? t.zoneChars = some t.offset := by
  have hhours : t.offset.natAbs / 3600 < 10 ^ 2 := by omega
  have hminutes : t.offset.natAbs / 60 % 60 < 10 ^ 2 := by omega
  have hlast := fixedDigits?_paddedDigits (by decide) hminutes []
  rw [List.append_nil] at hlast
  unfold zoneChars
  split
  · next hzero => rw [hzero]; rfl
  · -- an offset of less than a day has hours and minutes in range, whichever its sign
    have hbounds : ¬ (23 < t.offset.natAbs / 3600 ∨ 59 < t.offset.natAbs / 60 % 60) := by omega
    have hread : readOffset? (offsetChars t.offset) =
        let total : Int :=
          ((t.offset.natAbs / 3600 : Nat) * 60 + (t.offset.natAbs / 60 % 60 : Nat)) * 60
        some (if t.offset < 0 then -total else total) := by
      unfold offsetChars
      by_cases hneg : t.offset < 0 <;>
        simp [hneg, readOffset?, fixedDigits?_paddedDigits (by decide) hhours, hlast, hbounds]
    rw [hread, Option.some.injEq]
    split <;> omega

/-- Digits before the offset end there. -/
theorem endsDigits_zoneChars (t : DateTime) : EndsDigits t.zoneChars := by
  unfold zoneChars offsetChars
  split
  · simp [EndsDigits]
  · split <;> simp [EndsDigits]

/-- The offset does not look like a fraction. -/
theorem head?_zoneChars_ne (t : DateTime) : t.zoneChars.head? ≠ some '.' := by
  unfold zoneChars offsetChars
  split
  · simp
  · split <;> simp

/-! ### The whole text -/

theorem ofParts?_self (t : DateTime) :
    ofParts? t.date t.hour t.minute t.second t.nanosecond t.offset = some t :=
  dif_pos t.isTime

/-- A date-time is read back from its characters when its offset can be written. -/
theorem ofChars?_rfc3339Chars (h : t.IsWritable) : ofChars? t.rfc3339Chars = some t := by
  obtain ⟨hyear, hday, hwhole⟩ := h
  obtain ⟨hhour, hminute, hsecond, -⟩ := t.isTime
  have htwo : ∀ {n : Nat} (_ : n < 60) (rest : List Char),
      fixedDigits? 2 (paddedDigits 2 n ++ rest) = some (n, rest) := fun hn rest =>
    fixedDigits?_paddedDigits (by decide) (by omega) rest
  have hdate : Date.ofParts? t.date.year.natAbs t.date.month t.date.day = some t.date := by
    rw [Int.natAbs_of_nonneg hyear, Date.ofParts?_self]
  have htext : t.rfc3339Chars = t.date.body ++ 'T' :: (paddedDigits 2 t.hour ++ ':' ::
      (paddedDigits 2 t.minute ++ ':' :: (paddedDigits 2 t.second ++
        (t.fractionChars ++ t.zoneChars)))) := by
    simp only [rfc3339Chars, Date.chars_of_nonneg hyear, clock, fractionChars, zoneChars,
      List.append_assoc, List.cons_append]
  have hfraction := t.readFraction?_fractionChars t.endsDigits_zoneChars t.head?_zoneChars_ne
  rw [htext]
  simp only [ofChars?, Date.readParts?_body, htwo (show t.hour < 60 by omega), htwo hminute,
    htwo hsecond, hfraction, readOffset?_zoneChars hday hwhole, hdate, Nat.ne_of_lt hsecond,
    ofParts?_self, after?_cons, Option.bind_eq_bind, Option.bind_some, if_false]
  rfl

/-- A point in time that has a text is read back from it, with its offset. -/
theorem ofText?_of_rfc3339? {s : String} (h : t.rfc3339? = some s) : ofText? s = some t := by
  unfold rfc3339? at h
  split at h
  · next hwritable =>
    obtain rfl := Option.some.inj h
    rw [ofText?, String.toList_ofList, ofChars?_rfc3339Chars hwritable]
  · cases h

/-! ### What is read -/

/-- An offset that is read is one that can be written. -/
theorem offset_of_readOffset? {cs : List Char} {offset : Int}
    (h : readOffset? cs = some offset) :
    offset.natAbs < 24 * 3600 ∧ offset.natAbs % 60 = 0 := by
  unfold readOffset? at h
  split at h
  · obtain rfl := Option.some.inj h
    decide
  · obtain rfl := Option.some.inj h
    decide
  · simp only [Option.bind_eq_bind, Option.bind_none, Option.pure_def, Option.ite_none_left_eq_some,
      Option.bind_eq_some_iff] at h
    obtain ⟨-, ⟨hours, rest₁⟩, -, rest₂, -, ⟨minutes, rest₃⟩, -, hbounds, h⟩ := h
    split at h
    all_goals
      obtain rfl := Option.some.inj h
      omega
  · cases h

/-- The date and the offset that were read are kept. -/
theorem date_and_offset_of_ofParts? {date : Date} {hour minute second nanosecond : Nat}
    {offset : Int} (h : ofParts? date hour minute second nanosecond offset = some t) :
    t.date = date ∧ t.offset = offset := by
  unfold ofParts? at h
  split at h
  · obtain rfl := Option.some.inj h
    exact ⟨rfl, rfl⟩
  · cases h

/-- The date and the offset of what is read are those of its text. -/
theorem exists_parts_of_ofChars? {cs : List Char} (h : ofChars? cs = some t) :
    (∃ year month day : Nat, Date.ofParts? year month day = some t.date) ∧
      ∃ rest, readOffset? rest = some t.offset := by
  simp only [ofChars?, Option.bind_eq_bind, Option.bind_none, Option.bind_eq_some_iff] at h
  obtain ⟨parts, -, h⟩ := h
  split at h
  · simp only [Option.ite_none_right_eq_some, Option.bind_some, Option.bind_eq_some_iff] at h
    obtain ⟨-, hour, -, _, -, minute, -, _, -, second, -, fraction, -, offset, hoffset, date, hdate,
      h⟩ := h
    have hparts : t.date = date ∧ t.offset = offset := by
      split at h
      · obtain ⟨t', ht', h⟩ := Option.bind_eq_some_iff.1 h
        split at h
        · obtain rfl := Option.some.inj h
          exact date_and_offset_of_ofParts? ht'
        · cases h
      · exact date_and_offset_of_ofParts? h
    obtain ⟨rfl, rfl⟩ := hparts
    exact ⟨⟨_, _, _, hdate⟩, _, hoffset⟩
  · cases h

/-- A point in time that is read has a text. -/
theorem exists_rfc3339?_of_ofText? {s : String} (h : ofText? s = some t) :
    ∃ s', t.rfc3339? = some s' := by
  obtain ⟨⟨year, month, day, hdate⟩, rest, hoffset⟩ := exists_parts_of_ofChars? h
  have hyear : 0 ≤ t.date.year := by
    rw [Date.year_of_ofParts? hdate]
    exact Int.natCast_nonneg year
  exact ⟨_, if_pos ⟨hyear, offset_of_readOffset? hoffset⟩⟩

end DateTime

end RecordRules
