import RecordRules.Proofs.Decimal.Worth
import RecordRules.Proofs.Lists
import RecordRules.Proofs.Value.Fields

/-!
# Equality of values

Values are compared part by part, decimals by what they are worth and points in time by instant.
So equality is an equivalence relation without being identity.
-/

namespace RecordRules

/-! ## Named parts -/

/-- Two lists of named parts agree if they have the same names and parts that agree. -/
abbrev Entries.Agree {α β : Type} (R : α → β → Prop) (as : List (String × α))
    (bs : List (String × β)) : Prop :=
  List.Forall₂ (fun x y => x.1 = y.1 ∧ R x.2 y.2) as bs

/-- In lists that agree, the first parts under a name agree. -/
theorem Entries.Agree.get? {α β : Type} {R : α → β → Prop} {as : List (String × α)}
    {bs : List (String × β)} (h : Entries.Agree R as bs) (n : String) :
    Option.Rel R (Entries.get? n as) (Entries.get? n bs) := by
  induction h with
  | nil => exact .none
  | @cons x y as bs hxy _ ih =>
    obtain ⟨k, a⟩ := x
    obtain ⟨l, b⟩ := y
    obtain ⟨rfl, hab⟩ := hxy
    simp only [Entries.get?]
    split
    · exact .some hab
    · exact ih

/-- A key that one of two agreeing lists has is a key of the other. -/
theorem Entries.Agree.exists_get? {α β : Type} {R : α → β → Prop} {as : List (String × α)}
    {bs : List (String × β)} (h : Entries.Agree R as bs) {n : String} {a : α}
    (ha : Entries.get? n as = some a) : ∃ b, Entries.get? n bs = some b ∧ R a b := by
  have hget := h.get? n
  rw [ha] at hget
  cases hb : Entries.get? n bs with
  | none =>
    rw [hb] at hget
    cases hget
  | some b =>
    rw [hb, Option.rel_some_some] at hget
    exact ⟨b, rfl, hget⟩

/-- Agreement may be read from the second list to the first. -/
theorem Entries.Agree.symm {α β : Type} {R : α → β → Prop} {as : List (String × α)}
    {bs : List (String × β)} (h : Entries.Agree R as bs) :
    Entries.Agree (fun b a => R a b) bs as :=
  h.flip.imp fun _ _ ⟨hname, hxy⟩ => ⟨hname.symm, hxy⟩

/-- The names of lists that agree ascend in both or in neither. -/
theorem Entries.Ascending.of_agree {α β : Type} {R : α → β → Prop} {as : List (String × α)}
    {bs : List (String × β)} (has : Ascending as) (h : Agree R as bs) : Ascending bs := by
  have hkeys : as.map Prod.fst = bs.map Prod.fst :=
    map_eq_map_of_forall₂ h fun x _ y hxy => hxy.1
  have hpairwise := List.pairwise_map.2 has
  rw [hkeys] at hpairwise
  exact List.pairwise_map.1 hpairwise

/-- Date-times are equal when they name the same instant; their offsets may differ. -/
theorem DateTime.beq_iff (a b : DateTime) : (a == b) = true ↔ a.instant = b.instant := by
  show (a.instant == b.instant) = true ↔ _
  rw [beq_iff_eq]

namespace Value

/-! ## Equality of parts -/

/-- Induction over values: a statement holds of a list or a record if it holds of all parts. -/
@[elab_as_elim, induction_eliminator]
theorem induct {motive : Value → Prop} (null : motive .null) (bool : ∀ b, motive (.bool b))
    (int : ∀ i, motive (.int i)) (decimal : ∀ d, motive (.decimal d))
    (text : ∀ s, motive (.text s)) (date : ∀ d, motive (.date d))
    (dateTime : ∀ t, motive (.dateTime t))
    (list : ∀ items, (∀ v ∈ items, motive v) → motive (.list items))
    (record : ∀ fields, (∀ x ∈ fields.toList, motive x.2) → motive (.record fields)) (v : Value) :
    motive v :=
  @Value.rec motive (fun _ fields => ∀ x ∈ fields.toList, motive x.2)
    (fun items => ∀ v ∈ items, motive v) null bool int decimal text date dateTime list record
    nofun (fun _ _ _ _ hv hrest => List.forall_mem_cons.2 ⟨hv, hrest⟩)
    nofun (fun _ _ hv hrest => List.forall_mem_cons.2 ⟨hv, hrest⟩) v

/-- Lists are compared item by item. -/
theorem beqList_iff {as bs : List Value} :
    beqList as bs = true ↔ List.Forall₂ (fun a b => (a == b) = true) as bs := by
  induction as generalizing bs with
  | nil => cases bs <;> simp [beqList]
  | cons a rest ih =>
    cases bs with
    | nil => simp [beqList]
    | cons b bs =>
      rw [beqList, Bool.and_eq_true, ih, List.forall₂_cons]
      rfl

/-- Records are compared field by field, and have to have the same names. -/
theorem beqFields_iff {l m : Option String} {as : Fields l} {bs : Fields m} :
    beqFields as bs = true ↔ Entries.Agree (fun a b => (a == b) = true) as.toList bs.toList := by
  induction as generalizing m with
  | nil => cases bs <;> simp [beqFields, Fields.toList]
  | cons name after a as ih =>
    cases bs with
    | nil => simp [beqFields, Fields.toList]
    | cons name' after' b bs =>
      rw [beqFields, Bool.and_eq_true, Bool.and_eq_true, ih, beq_iff_eq]
      unfold Entries.Agree
      rw [Fields.toList, Fields.toList, List.forall₂_cons]
      rfl

/-! ## What equals a value of each kind -/

section

attribute [local simp] beq

variable {w : Value}

/-- The comparison is the recursive function, unfolded below for each shape of value. -/
theorem beq_def (v w : Value) : (v == w) = beq v w := rfl

@[simp] theorem null_beq_iff : (null == w) = true ↔ w = null := by
  cases w <;> simp [beq_def]

@[simp] theorem bool_beq_iff {b : Bool} : (bool b == w) = true ↔ w = bool b := by
  cases w <;> simp [beq_def, @eq_comm _ b]

@[simp] theorem int_beq_iff {i : Int64} : (int i == w) = true ↔ w = int i := by
  cases w <;> simp [beq_def, @eq_comm _ i]

@[simp] theorem decimal_beq_iff {d : Decimal} :
    (decimal d == w) = true ↔ ∃ e, w = decimal e ∧ d.worth = e.worth := by
  cases w <;> simp [beq_def]

@[simp] theorem text_beq_iff {s : String} : (text s == w) = true ↔ w = text s := by
  cases w <;> simp [beq_def, @eq_comm _ s]

@[simp] theorem date_beq_iff {d : Date} : (date d == w) = true ↔ w = date d := by
  cases w <;> simp [beq_def, @eq_comm _ d]

@[simp] theorem dateTime_beq_iff {t : DateTime} :
    (dateTime t == w) = true ↔ ∃ u, w = dateTime u ∧ t.instant = u.instant := by
  cases w <;> simp [beq_def, DateTime.beq_iff]

@[simp] theorem list_beq_iff {as : List Value} : (list as == w) = true ↔
    ∃ bs, w = list bs ∧ List.Forall₂ (fun a b => (a == b) = true) as bs := by
  cases w <;> simp [beq_def, beqList_iff]

@[simp] theorem record_beq_iff {as : Fields none} : (record as == w) = true ↔
    ∃ bs, w = record bs ∧
      Entries.Agree (fun a b => (a == b) = true) as.toList bs.toList := by
  cases w <;> simp [beq_def, beqFields_iff]

end

/-! ## Equality is an equivalence -/

/-- Every value equals itself, since the comparison of parts is reflexive. -/
theorem beq_refl (v : Value) : (v == v) = true := by
  induction v with
  | null | bool | int | text | date => simp
  | decimal d => exact decimal_beq_iff.2 ⟨d, rfl, rfl⟩
  | dateTime t => exact dateTime_beq_iff.2 ⟨t, rfl, rfl⟩
  | list items ih => exact list_beq_iff.2 ⟨items, rfl, List.forall₂_same.2 ih⟩
  | record fields ih =>
    exact record_beq_iff.2 ⟨fields, rfl, List.forall₂_same.2 fun x hx => ⟨rfl, ih x hx⟩⟩

/-- Equality may be read from right to left. -/
theorem beq_symm {v w : Value} (h : (v == w) = true) : (w == v) = true := by
  induction v generalizing w with
  | null => rw [null_beq_iff.1 h]; exact beq_refl _
  | bool b => rw [bool_beq_iff.1 h]; exact beq_refl _
  | int i => rw [int_beq_iff.1 h]; exact beq_refl _
  | text s => rw [text_beq_iff.1 h]; exact beq_refl _
  | date d => rw [date_beq_iff.1 h]; exact beq_refl _
  | decimal d =>
    obtain ⟨e, rfl, hworth⟩ := decimal_beq_iff.1 h
    exact decimal_beq_iff.2 ⟨d, rfl, hworth.symm⟩
  | dateTime t =>
    obtain ⟨u, rfl, hinstant⟩ := dateTime_beq_iff.1 h
    exact dateTime_beq_iff.2 ⟨t, rfl, hinstant.symm⟩
  | list as ih =>
    obtain ⟨bs, rfl, hitems⟩ := list_beq_iff.1 h
    refine list_beq_iff.2 ⟨as, rfl, .flip ?_⟩
    exact ((List.forall₂_and_left as bs).2 ⟨ih, hitems⟩).imp fun a b hab => hab.1 hab.2
  | record as ih =>
    obtain ⟨bs, rfl, hfields⟩ := record_beq_iff.1 h
    refine record_beq_iff.2 ⟨as, rfl, .flip ?_⟩
    exact ((List.forall₂_and_left as.toList bs.toList).2 ⟨ih, hfields⟩).imp fun x y hxy =>
      ⟨hxy.2.1.symm, hxy.1 hxy.2.2⟩

/-- Equality of values is transitive.  Decimals and date-times are compared by what they are worth,
and all other values by what they are. -/
theorem beq_trans {u v w : Value} (huv : (u == v) = true) (hvw : (v == w) = true) :
    (u == w) = true := by
  induction u generalizing v w with
  | null => rwa [← null_beq_iff.1 huv]
  | bool b => rwa [← bool_beq_iff.1 huv]
  | int i => rwa [← int_beq_iff.1 huv]
  | text s => rwa [← text_beq_iff.1 huv]
  | date d => rwa [← date_beq_iff.1 huv]
  | decimal d =>
    obtain ⟨e, rfl, hde⟩ := decimal_beq_iff.1 huv
    obtain ⟨f, rfl, hef⟩ := decimal_beq_iff.1 hvw
    exact decimal_beq_iff.2 ⟨f, rfl, hde.trans hef⟩
  | dateTime t =>
    obtain ⟨t₁, rfl, h₁⟩ := dateTime_beq_iff.1 huv
    obtain ⟨t₂, rfl, h₂⟩ := dateTime_beq_iff.1 hvw
    exact dateTime_beq_iff.2 ⟨t₂, rfl, h₁.trans h₂⟩
  | list as ih =>
    obtain ⟨bs, rfl, hab⟩ := list_beq_iff.1 huv
    obtain ⟨cs, rfl, hbc⟩ := list_beq_iff.1 hvw
    have hcomp := forall₂_comp ((List.forall₂_and_left as bs).2 ⟨@ih, hab⟩) hbc
    refine list_beq_iff.2 ⟨cs, rfl, hcomp.imp ?_⟩
    rintro a c ⟨b, ⟨ih, hab⟩, hbc⟩
    exact ih hab hbc
  | record as ih =>
    obtain ⟨bs, rfl, hab⟩ := record_beq_iff.1 huv
    obtain ⟨cs, rfl, hbc⟩ := record_beq_iff.1 hvw
    have hcomp := forall₂_comp ((List.forall₂_and_left as.toList bs.toList).2 ⟨@ih, hab⟩) hbc
    refine record_beq_iff.2 ⟨cs, rfl, hcomp.imp ?_⟩
    rintro x z ⟨y, ⟨ih, hxy, hab⟩, hyz, hbc⟩
    exact ⟨hxy.trans hyz, ih hab hbc⟩

instance : EquivBEq Value where
  rfl := beq_refl _
  symm := beq_symm
  trans := beq_trans

/-! ## Fields of records -/

/-- What a record holds under a name, `null` if nothing. -/
def fieldOf (vs : Fields none) (n : String) : Value := (Entries.get? n vs.toList).getD .null

/-- Equal records have equal values in a field, and miss the same ones. -/
theorem fieldOf_beq {vs ws : Fields none}
    (h : Entries.Agree (fun v w => (v == w) = true) vs.toList ws.toList) (n : String) :
    (fieldOf vs n == fieldOf ws n) = true := by
  unfold fieldOf
  have hget := h.get? n
  revert hget
  generalize Entries.get? n vs.toList = v?
  generalize Entries.get? n ws.toList = w?
  rintro (hvw | _)
  · exact hvw
  · exact BEq.refl _

end Value

end RecordRules
