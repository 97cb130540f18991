import RecordRules.Proofs.Value.Equality
import RecordRules.Ty.Basic

/-!
# The values of a type

What each kind of type admits, in terms of its parts.  Equal types admit the same values, and
equal values are admitted by the same types (`admits_of_ty_beq`, `admits_of_beq`).
-/

namespace RecordRules.Ty

/-- Induction over types: a statement holds of a type if it holds of all its parts. -/
@[elab_as_elim, induction_eliminator]
theorem induct {motive : Ty → Prop} (any : motive .any) (null : motive .null)
    (bool : motive .bool) (int : motive .int) (decimal : motive .decimal) (text : motive .text)
    (date : motive .date) (dateTime : motive .dateTime) (literal : ∀ v, motive (.literal v))
    (union : ∀ members, (∀ t ∈ members, motive t) → motive (.union members))
    (list : ∀ element, motive element → motive (.list element))
    (tuple : ∀ items, (∀ t ∈ items, motive t) → motive (.tuple items))
    (record : ∀ fields, (∀ x ∈ fields, motive x.2) → motive (.record fields)) (t : Ty) :
    motive t :=
  @Ty.rec motive (fun ts => ∀ t ∈ ts, motive t) (fun fields => ∀ x ∈ fields, motive x.2)
    (fun x => motive x.2) any null bool int decimal text date dateTime literal union list tuple
    record (by simp) (fun t rest ht hrest => List.forall_mem_cons.2 ⟨ht, hrest⟩) (by simp)
    (fun x rest hx hrest => List.forall_mem_cons.2 ⟨hx, hrest⟩) (fun _ _ ht => ht) t

/-! ## Admitted values -/

section

attribute [local simp] admits

variable {v : Value}

/-- A union tries its members one after the other. -/
theorem someAdmits_iff {ts : List Ty} :
    someAdmits ts v = true ↔ ∃ t ∈ ts, t.admits v = true := by
  induction ts with
  | nil => simp [someAdmits]
  | cons t rest ih => simp [someAdmits, ih]

/-- A tuple admits item by item, and as many items as it has types. -/
theorem eachAdmits_iff {ts : List Ty} {vs : List Value} :
    eachAdmits ts vs = true ↔ List.Forall₂ (fun t v => t.admits v = true) ts vs := by
  induction ts generalizing vs with
  | nil => cases vs <;> simp [eachAdmits]
  | cons t rest ih => cases vs <;> simp [eachAdmits, ih]

/-- A record type looks each of its fields up in the value, where a missing one counts as `null`. -/
theorem fieldsAdmit_iff {fields : List (String × Ty)} {vs : Value.Fields none} :
    fieldsAdmit fields vs.toList = true ↔
      ∀ x ∈ fields, x.2.admits (Value.fieldOf vs x.1) = true := by
  induction fields with
  | nil => simp [fieldsAdmit]
  | cons x rest ih =>
    rw [fieldsAdmit, Bool.and_eq_true, ih, List.forall_mem_cons]
    rfl

/-- The type `any` admits every value. -/
@[simp] theorem any_admits : any.admits v = true := by simp

/-- The type `null` has a single value. -/
@[simp] theorem null_admits_iff : null.admits v = true ↔ v = .null := by
  cases v <;> simp

@[simp] theorem bool_admits_iff : bool.admits v = true ↔ ∃ b, v = .bool b := by
  cases v <;> simp

@[simp] theorem int_admits_iff : int.admits v = true ↔ ∃ i, v = .int i := by
  cases v <;> simp

/-- Integers are decimals as well. -/
@[simp] theorem decimal_admits_iff :
    decimal.admits v = true ↔ (∃ d, v = .decimal d) ∨ ∃ i, v = .int i := by
  cases v <;> simp

@[simp] theorem text_admits_iff : text.admits v = true ↔ ∃ s, v = .text s := by
  cases v <;> simp

@[simp] theorem date_admits_iff : date.admits v = true ↔ ∃ d, v = .date d := by
  cases v <;> simp

@[simp] theorem dateTime_admits_iff : dateTime.admits v = true ↔ ∃ t, v = .dateTime t := by
  cases v <;> simp

/-- A literal admits what equals its value, in whatever form. -/
@[simp] theorem literal_admits_iff {w : Value} :
    (literal w).admits v = true ↔ (w == v) = true := by
  simp

/-- A union admits what one of its members admits, hence nothing if it has none. -/
@[simp] theorem union_admits_iff {members : List Ty} :
    (union members).admits v = true ↔ ∃ t ∈ members, t.admits v = true := by
  rw [admits, someAdmits_iff]

/-- A list type goes by the items, of which there may be any number. -/
@[simp] theorem list_admits_iff {element : Ty} :
    (list element).admits v = true ↔ ∃ vs, v = .list vs ∧ ∀ w ∈ vs, element.admits w = true := by
  cases v <;> simp

/-- A tuple type goes by the items at their positions. -/
@[simp] theorem tuple_admits_iff {items : List Ty} :
    (tuple items).admits v = true ↔
      ∃ vs, v = .list vs ∧ List.Forall₂ (fun t w => t.admits w = true) items vs := by
  cases v <;> simp [eachAdmits_iff]

/-- A record type goes by the fields it declares and does not mind others. -/
@[simp] theorem record_admits_iff {fields : List (String × Ty)} :
    (record fields).admits v = true ↔
      ∃ vs, v = .record vs ∧ ∀ x ∈ fields, x.2.admits (Value.fieldOf vs x.1) = true := by
  cases v <;> simp [fieldsAdmit_iff]

end

/-! ## Equal values -/

/-- A type that admits a value admits every equal one. -/
theorem admits_of_beq {t : Ty} {v w : Value} (hvw : (v == w) = true) (hv : t.admits v = true) :
    t.admits w = true := by
  induction t generalizing v w with
  | any => exact any_admits
  | null =>
    obtain rfl := null_admits_iff.1 hv
    rwa [Value.null_beq_iff.1 hvw]
  | bool =>
    obtain ⟨b, rfl⟩ := bool_admits_iff.1 hv
    rwa [Value.bool_beq_iff.1 hvw]
  | int =>
    obtain ⟨i, rfl⟩ := int_admits_iff.1 hv
    rwa [Value.int_beq_iff.1 hvw]
  | decimal =>
    rcases decimal_admits_iff.1 hv with ⟨d, rfl⟩ | ⟨i, rfl⟩
    · obtain ⟨e, rfl, -⟩ := Value.decimal_beq_iff.1 hvw
      exact decimal_admits_iff.2 (.inl ⟨e, rfl⟩)
    · rwa [Value.int_beq_iff.1 hvw]
  | text =>
    obtain ⟨s, rfl⟩ := text_admits_iff.1 hv
    rwa [Value.text_beq_iff.1 hvw]
  | date =>
    obtain ⟨d, rfl⟩ := date_admits_iff.1 hv
    rwa [Value.date_beq_iff.1 hvw]
  | dateTime =>
    obtain ⟨t, rfl⟩ := dateTime_admits_iff.1 hv
    obtain ⟨u, rfl, -⟩ := Value.dateTime_beq_iff.1 hvw
    exact dateTime_admits_iff.2 ⟨u, rfl⟩
  | literal u => exact literal_admits_iff.2 (BEq.trans (literal_admits_iff.1 hv) hvw)
  | union members ih =>
    obtain ⟨t, ht, hv⟩ := union_admits_iff.1 hv
    exact union_admits_iff.2 ⟨t, ht, ih t ht hvw hv⟩
  | list element ih =>
    obtain ⟨vs, rfl, hvs⟩ := list_admits_iff.1 hv
    obtain ⟨ws, rfl, hsame⟩ := Value.list_beq_iff.1 hvw
    refine list_admits_iff.2 ⟨ws, rfl, fun w hw => ?_⟩
    obtain ⟨v, hv, hvw⟩ := exists_mem_of_forall₂ hsame hw
    exact ih hvw (hvs v hv)
  | tuple items ih =>
    obtain ⟨vs, rfl, hvs⟩ := tuple_admits_iff.1 hv
    obtain ⟨ws, rfl, hsame⟩ := Value.list_beq_iff.1 hvw
    have hcomp := forall₂_comp ((List.forall₂_and_left items vs).2 ⟨@ih, hvs⟩) hsame
    refine tuple_admits_iff.2 ⟨ws, rfl, hcomp.imp ?_⟩
    rintro t w ⟨v, ⟨ih, hv⟩, hvw⟩
    exact ih hvw hv
  | record fields ih =>
    obtain ⟨vs, rfl, hvs⟩ := record_admits_iff.1 hv
    obtain ⟨ws, rfl, hsame⟩ := Value.record_beq_iff.1 hvw
    refine record_admits_iff.2 ⟨ws, rfl, ?_⟩
    intro x hx
    exact ih x hx (Value.fieldOf_beq hsame x.1) (hvs x hx)

/-! ## Equal types -/

section

variable {a : Ty}

attribute [local simp] beq

/-- The comparison of types is the recursive function, unfolded below for each shape of type. -/
theorem beq_def (e a : Ty) : (e == a) = beq e a := rfl

/-- Lists of types are compared type by type. -/
theorem beqList_iff {as bs : List Ty} :
    beqList as bs = true ↔ List.Forall₂ (fun a b => (a == b) = true) as bs := by
  induction as generalizing bs with
  | nil => cases bs <;> simp [beqList]
  | cons a rest ih =>
    cases bs with
    | nil => simp [beqList]
    | cons b bs =>
      rw [beqList, Bool.and_eq_true, ih, List.forall₂_cons]
      rfl

/-- Fields are compared in the order in which they are declared. -/
theorem beqFields_iff {as bs : List (String × Ty)} :
    beqFields as bs = true ↔ Entries.Agree (fun a b => (a == b) = true) as bs := by
  induction as generalizing bs with
  | nil => cases bs <;> simp [beqFields]
  | cons x rest ih =>
    cases bs with
    | nil => simp [beqFields]
    | cons y bs =>
      rw [beqFields, Bool.and_eq_true, Bool.and_eq_true, ih, beq_iff_eq]
      unfold Entries.Agree
      rw [List.forall₂_cons]
      rfl

@[simp] theorem any_beq_iff : (any == a) = true ↔ a = any := by
  cases a <;> simp [beq_def]

@[simp] theorem null_beq_iff : (null == a) = true ↔ a = null := by
  cases a <;> simp [beq_def]

@[simp] theorem bool_beq_iff : (bool == a) = true ↔ a = bool := by
  cases a <;> simp [beq_def]

@[simp] theorem int_beq_iff : (int == a) = true ↔ a = int := by
  cases a <;> simp [beq_def]

@[simp] theorem decimal_beq_iff : (decimal == a) = true ↔ a = decimal := by
  cases a <;> simp [beq_def]

@[simp] theorem text_beq_iff : (text == a) = true ↔ a = text := by
  cases a <;> simp [beq_def]

@[simp] theorem date_beq_iff : (date == a) = true ↔ a = date := by
  cases a <;> simp [beq_def]

@[simp] theorem dateTime_beq_iff : (dateTime == a) = true ↔ a = dateTime := by
  cases a <;> simp [beq_def]

/-- Literals are equal when their values are, in whatever form. -/
@[simp] theorem literal_beq_iff {v : Value} :
    (literal v == a) = true ↔ ∃ w, a = literal w ∧ (v == w) = true := by
  cases a <;> simp [beq_def]

/-- Unions are equal when they have equal members in the same order. -/
@[simp] theorem union_beq_iff {as : List Ty} : (union as == a) = true ↔
    ∃ bs, a = union bs ∧ List.Forall₂ (fun a b => (a == b) = true) as bs := by
  cases a <;> simp [beq_def, beqList_iff]

@[simp] theorem list_beq_iff {e : Ty} :
    (list e == a) = true ↔ ∃ b, a = list b ∧ (e == b) = true := by
  cases a <;> simp [beq_def]

/-- Tuple types are equal when they have equal items. -/
@[simp] theorem tuple_beq_iff {as : List Ty} : (tuple as == a) = true ↔
    ∃ bs, a = tuple bs ∧ List.Forall₂ (fun a b => (a == b) = true) as bs := by
  cases a <;> simp [beq_def, beqList_iff]

/-- Record types are equal when they declare equal fields in the same order. -/
@[simp] theorem record_beq_iff {as : List (String × Ty)} : (record as == a) = true ↔
    ∃ bs, a = record bs ∧ Entries.Agree (fun a b => (a == b) = true) as bs := by
  cases a <;> simp [beq_def, beqFields_iff]

end

/-- Every type equals itself. -/
theorem beq_refl (t : Ty) : (t == t) = true := by
  induction t with
  | any | null | bool | int | decimal | text | date | dateTime => rfl
  | literal v => exact literal_beq_iff.2 ⟨v, rfl, v.beq_refl⟩
  | list e ih => exact list_beq_iff.2 ⟨e, rfl, ih⟩
  | union ts ih => exact union_beq_iff.2 ⟨ts, rfl, List.forall₂_same.2 ih⟩
  | tuple ts ih => exact tuple_beq_iff.2 ⟨ts, rfl, List.forall₂_same.2 ih⟩
  | record fields ih =>
    exact record_beq_iff.2 ⟨fields, rfl, List.forall₂_same.2 fun x hx => ⟨rfl, ih x hx⟩⟩

/-- Equality of types is transitive, by induction on the first type. -/
theorem beq_trans {e b a : Ty} (heb : (e == b) = true) (hba : (b == a) = true) :
    (e == a) = true := by
  induction e generalizing b a with
  | any => rwa [← any_beq_iff.1 heb]
  | null => rwa [← null_beq_iff.1 heb]
  | bool => rwa [← bool_beq_iff.1 heb]
  | int => rwa [← int_beq_iff.1 heb]
  | decimal => rwa [← decimal_beq_iff.1 heb]
  | text => rwa [← text_beq_iff.1 heb]
  | date => rwa [← date_beq_iff.1 heb]
  | dateTime => rwa [← dateTime_beq_iff.1 heb]
  | literal u =>
    obtain ⟨v, rfl, huv⟩ := literal_beq_iff.1 heb
    obtain ⟨w, rfl, hvw⟩ := literal_beq_iff.1 hba
    exact literal_beq_iff.2 ⟨w, rfl, BEq.trans huv hvw⟩
  | list e ih =>
    obtain ⟨b, rfl, heb⟩ := list_beq_iff.1 heb
    obtain ⟨a, rfl, hba⟩ := list_beq_iff.1 hba
    exact list_beq_iff.2 ⟨a, rfl, ih heb hba⟩
  | union es ih =>
    obtain ⟨bs, rfl, hes⟩ := union_beq_iff.1 heb
    obtain ⟨as, rfl, hbs⟩ := union_beq_iff.1 hba
    refine union_beq_iff.2 ⟨as, rfl, ?_⟩
    refine forall₂_imp_of_mem (forall₂_comp hes hbs) fun e he a => ?_
    rintro ⟨b, heb, hba⟩
    exact ih e he heb hba
  | tuple es ih =>
    obtain ⟨bs, rfl, hes⟩ := tuple_beq_iff.1 heb
    obtain ⟨as, rfl, hbs⟩ := tuple_beq_iff.1 hba
    refine tuple_beq_iff.2 ⟨as, rfl, ?_⟩
    refine forall₂_imp_of_mem (forall₂_comp hes hbs) fun e he a => ?_
    rintro ⟨b, heb, hba⟩
    exact ih e he heb hba
  | record es ih =>
    obtain ⟨bs, rfl, hes⟩ := record_beq_iff.1 heb
    obtain ⟨as, rfl, hbs⟩ := record_beq_iff.1 hba
    refine record_beq_iff.2 ⟨as, rfl, ?_⟩
    refine forall₂_imp_of_mem (forall₂_comp hes hbs) fun x hx z => ?_
    rintro ⟨y, ⟨hxy, heb⟩, hyz, hba⟩
    exact ⟨hxy.trans hyz, ih x hx heb hba⟩

/-- A type admits what an equal one admits. -/
theorem admits_of_ty_beq {e a : Ty} {v : Value} (h : (e == a) = true) (hv : a.admits v = true) :
    e.admits v = true := by
  induction e generalizing a v with
  | any => exact any_admits
  | null => rwa [← null_beq_iff.1 h]
  | bool => rwa [← bool_beq_iff.1 h]
  | int => rwa [← int_beq_iff.1 h]
  | decimal => rwa [← decimal_beq_iff.1 h]
  | text => rwa [← text_beq_iff.1 h]
  | date => rwa [← date_beq_iff.1 h]
  | dateTime => rwa [← dateTime_beq_iff.1 h]
  | literal u =>
    obtain ⟨w, rfl, huw⟩ := literal_beq_iff.1 h
    exact literal_admits_iff.2 (BEq.trans huw (literal_admits_iff.1 hv))
  | union es ih =>
    obtain ⟨as, rfl, has⟩ := union_beq_iff.1 h
    obtain ⟨a, ha, hv⟩ := union_admits_iff.1 hv
    obtain ⟨e, he, hea⟩ := exists_mem_of_forall₂ has ha
    exact union_admits_iff.2 ⟨e, he, ih e he hea hv⟩
  | list e ih =>
    obtain ⟨a, rfl, hea⟩ := list_beq_iff.1 h
    obtain ⟨vs, rfl, hvs⟩ := list_admits_iff.1 hv
    exact list_admits_iff.2 ⟨vs, rfl, fun v hv => ih hea (hvs v hv)⟩
  | tuple es ih =>
    obtain ⟨as, rfl, has⟩ := tuple_beq_iff.1 h
    obtain ⟨vs, rfl, hvs⟩ := tuple_admits_iff.1 hv
    have hcomp := forall₂_comp ((List.forall₂_and_left es as).2 ⟨@ih, has⟩) hvs
    refine tuple_admits_iff.2 ⟨vs, rfl, hcomp.imp ?_⟩
    rintro e v ⟨a, ⟨ih, hea⟩, hv⟩
    exact ih hea hv
  | record es ih =>
    obtain ⟨as, rfl, has⟩ := record_beq_iff.1 h
    obtain ⟨vs, rfl, hvs⟩ := record_admits_iff.1 hv
    refine record_admits_iff.2 ⟨vs, rfl, fun x hx => ?_⟩
    obtain ⟨y, hy, hxy, hea⟩ := exists_mem_of_forall₂ has.flip hx
    exact ih x hx hea (hxy ▸ hvs y hy)

end RecordRules.Ty
