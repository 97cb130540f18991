import RecordRules.Proofs.Ty.Admission
import RecordRules.Ty.Accepts

/-!
# Accepted types are covered

A type covers another one if it admits all its values.  Each rule by which one type accepts
another leads to a covered type, so a value may pass wherever its type is accepted
(`admits_of_accepts`).
-/

namespace RecordRules.Ty

/-- Every value of `a` is one of `e`. -/
def Covers (e a : Ty) : Prop := ∀ v, a.admits v = true → e.admits v = true

variable {e a : Ty}

/-! ## Rules for coverage -/

/-- The type `any` covers everything. -/
theorem any_covers : Covers any a := fun _ _ => any_admits

/-- Equal types cover each other. -/
theorem covers_of_beq (h : (e == a) = true) : Covers e a := fun _ => admits_of_ty_beq h

/-- A literal is covered once its value is admitted, for it has no others but those equal to it. -/
theorem covers_literal {v : Value} (h : e.admits v = true) : Covers e (literal v) := by
  intro w hw
  exact admits_of_beq (literal_admits_iff.1 hw) h

/-- The integers are among the decimals. -/
theorem decimal_covers_int : Covers decimal int := by
  intro v hv
  exact decimal_admits_iff.2 (.inr (int_admits_iff.1 hv))

/-- A union covers whatever one of its members covers. -/
theorem union_covers {members : List Ty} (he : e ∈ members) (h : Covers e a) :
    Covers (union members) a := by
  intro v hv
  exact union_admits_iff.2 ⟨e, he, h v hv⟩

/-- A union is covered when all of its members are. -/
theorem covers_union {members : List Ty} (h : ∀ a ∈ members, Covers e a) :
    Covers e (union members) := by
  intro v hv
  obtain ⟨a, ha, hv⟩ := union_admits_iff.1 hv
  exact h a ha v hv

/-- Lists are covered by their elements. -/
theorem list_covers (h : Covers e a) : Covers (list e) (list a) := by
  intro v hv
  obtain ⟨vs, rfl, hvs⟩ := list_admits_iff.1 hv
  exact list_admits_iff.2 ⟨vs, rfl, fun v hv => h v (hvs v hv)⟩

/-- Tuples are covered item by item. -/
theorem tuple_covers {es as : List Ty} (h : List.Forall₂ Covers es as) :
    Covers (tuple es) (tuple as) := by
  intro v hv
  obtain ⟨vs, rfl, hvs⟩ := tuple_admits_iff.1 hv
  refine tuple_admits_iff.2 ⟨vs, rfl, (forall₂_comp h hvs).imp ?_⟩
  rintro e v ⟨a, hea, hv⟩
  exact hea v hv

/-- A record needs each expected field; a repeated one counts by its first declaration, whose
type admits what the record holds like those of the others. -/
theorem record_covers {es as : List (String × Ty)}
    (h : ∀ x ∈ es, ∃ a, Entries.get? x.1 as = some a ∧ Covers x.2 a) :
    Covers (record es) (record as) := by
  intro v hv
  obtain ⟨vs, rfl, hvs⟩ := record_admits_iff.1 hv
  refine record_admits_iff.2 ⟨vs, rfl, fun x hx => ?_⟩
  obtain ⟨a, ha, hxa⟩ := h x hx
  exact hxa _ (hvs (x.1, a) (Entries.mem_of_get? ha))

/-! ## Rules for acceptance -/

/-- A union accepts what one of its members accepts. -/
theorem someAccepts_iff {es : List Ty} :
    someAccepts es a = true ↔ ∃ e ∈ es, e.accepts a = true := by
  induction es with
  | nil => simp [someAccepts]
  | cons e rest ih => simp [someAccepts, ih]

/-- A tuple accepts item by item. -/
theorem eachAccepts_iff {es as : List Ty} :
    eachAccepts es as = true ↔ List.Forall₂ (fun e a => e.accepts a = true) es as := by
  induction es generalizing as with
  | nil => cases as <;> simp [eachAccepts]
  | cons e rest ih => cases as <;> simp [eachAccepts, ih]

/-- A record accepts field by field; a field that it does not expect is of no concern. -/
theorem fieldsAccept_iff {es as : List (String × Ty)} : fieldsAccept es as = true ↔
    ∀ x ∈ es, ∃ a, Entries.get? x.1 as = some a ∧ x.2.accepts a = true := by
  induction es with
  | nil => simp [fieldsAccept]
  | cons x rest ih =>
    rw [fieldsAccept, Bool.and_eq_true, ih, List.forall_mem_cons]
    cases Entries.get? x.1 as <;> simp

/-- A union that is put to a type is taken member by member. -/
theorem overAllMembers_iff {p : Ty → Bool} {members : List Ty} :
    overAllMembers e p members = true ↔ ∀ a ∈ members, overMembers e p a = true := by
  induction members with
  | nil => simp [overAllMembers]
  | cons a rest ih => simp [overAllMembers, ih]

/-- Equal types are accepted before their members are looked at. -/
theorem overMembers_of_beq {p : Ty → Bool} (h : (e == a) = true) : overMembers e p a = true := by
  cases a <;> simp only [overMembers, h, Bool.true_or]

/-- Equal types accept each other, by whichever rule is asked first. -/
theorem accepts_of_beq (h : (e == a) = true) : e.accepts a = true := by
  cases e with
  | any => rw [accepts]
  | _ =>
    simp only [accepts]
    exact overMembers_of_beq h

/-- Every type accepts itself. -/
theorem accepts_self (t : Ty) : t.accepts t = true := accepts_of_beq t.beq_refl

/-! ## From acceptance to coverage -/

/-- The rule for literals accepts only what is covered. -/
theorem covers_of_acceptsLiteral (h : acceptsLiteral e a = true) : Covers e a := by
  cases a with
  | literal v => exact covers_literal h
  | _ => cases h

/-- Going through the members of a union accepts only what is covered, if the rule for single types
does. -/
theorem covers_of_overMembers {p : Ty → Bool} (hp : ∀ a, p a = true → Covers e a)
    (h : overMembers e p a = true) : Covers e a := by
  induction a with
  | union members ih =>
    rw [overMembers, Bool.or_eq_true, Bool.and_eq_true, overAllMembers_iff] at h
    rcases h with h | ⟨_, h⟩
    · exact covers_of_beq h
    · exact covers_union fun a ha => ih a ha (h a ha)
  | _ =>
    simp only [overMembers, Bool.or_eq_true] at h
    rcases h with h | h
    · exact covers_of_beq h
    · exact hp _ h

/-- Acceptance is sound: what is accepted is covered.  By induction on the accepting type, with one
rule for each of its kinds. -/
theorem covers_of_accepts (h : e.accepts a = true) : Covers e a := by
  induction e generalizing a with
  | any => exact any_covers
  | union members ih =>
    rw [accepts] at h
    refine covers_of_overMembers (fun a ha => ?_) h
    obtain ⟨e, he, hea⟩ := someAccepts_iff.1 ha
    exact union_covers he (ih e he hea)
  | decimal =>
    rw [accepts] at h
    refine covers_of_overMembers (fun a ha => ?_) h
    cases a with
    | int => exact decimal_covers_int
    | _ => exact covers_of_acceptsLiteral ha
  | list e ih =>
    rw [accepts] at h
    refine covers_of_overMembers (fun a ha => ?_) h
    cases a with
    | list a => exact list_covers (ih ha)
    | _ => exact covers_of_acceptsLiteral ha
  | tuple es ih =>
    rw [accepts] at h
    refine covers_of_overMembers (fun a ha => ?_) h
    cases a with
    | tuple as =>
      refine tuple_covers (.imp ?_ ((List.forall₂_and_left es as).2 ⟨@ih, eachAccepts_iff.1 ha⟩))
      rintro e a ⟨ih, hea⟩
      exact ih hea
    | _ => exact covers_of_acceptsLiteral ha
  | record es ih =>
    rw [accepts] at h
    refine covers_of_overMembers (fun a ha => ?_) h
    cases a with
    | record as =>
      apply record_covers
      intro x hx
      obtain ⟨a, hget, hxa⟩ := fieldsAccept_iff.1 ha x hx
      exact ⟨a, hget, ih x hx hxa⟩
    | _ => exact covers_of_acceptsLiteral ha
  | _ =>
    simp only [accepts] at h
    exact covers_of_overMembers (fun _ => covers_of_acceptsLiteral) h

/-- A value of a type is one of every type that accepts it. -/
theorem admits_of_accepts {e a : Ty} {v : Value} (h : e.accepts a = true)
    (hv : a.admits v = true) : e.admits v = true :=
  covers_of_accepts h v hv

/-- A record without its optional field, of a type with a field more. -/
theorem admits_of_accepts_record :
    (record [("a", optional decimal)]).accepts (record [("a", optional int), ("b", text)]) =
        true ∧
      (record [("a", optional int), ("b", text)]).admits (.recordOf [("b", .text "x")]) = true ∧
      (record [("a", optional decimal)]).admits (.recordOf [("b", .text "x")]) = true := by
  have haccepts : (record [("a", optional decimal)]).accepts
      (record [("a", optional int), ("b", text)]) = true := by decide +kernel
  have hadmits : (record [("a", optional int), ("b", text)]).admits
      (.recordOf [("b", .text "x")]) = true := by decide
  exact ⟨haccepts, hadmits, admits_of_accepts haccepts hadmits⟩

end RecordRules.Ty
