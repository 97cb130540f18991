import RecordRules.Proofs.Ty.Coverage
import RecordRules.Proofs.Ty.Paths

/-!
# Acceptance as a preorder

Every type accepts itself, and a type accepts what is accepted by a type that it accepts, as long as
the last of the three has no union without members (`accepts_preorder`).

A union is accepted through its alternatives, which are no unions themselves.  Of these a literal
goes by its value, so that coverage passes it on, and for all others, the plain types, the rule that
applies can be read off the type that accepts (`decimal_accepts_iff` to `record_accepts_iff`).
-/

namespace RecordRules.Ty

/-! ## Properties of all types in a type -/

mutual

/-- Whether the type and all types in it pass, at any depth. -/
def every (p : Ty → Bool) : Ty → Bool
  | union members => p (union members) && everyOf p members
  | list element => p (list element) && every p element
  | tuple items => p (tuple items) && everyOf p items
  | record fields => p (record fields) && everyIn p fields
  | t => p t

def everyOf (p : Ty → Bool) : List Ty → Bool
  | [] => true
  | t :: rest => every p t && everyOf p rest

def everyIn (p : Ty → Bool) : List (String × Ty) → Bool
  | [] => true
  | (_, t) :: rest => every p t && everyIn p rest

end

section

variable {p : Ty → Bool}

/-- What is asked of every type in a list is asked of each one there. -/
theorem everyOf_iff {ts : List Ty} : everyOf p ts = true ↔ ∀ t ∈ ts, t.every p = true := by
  induction ts with
  | nil => simp [everyOf]
  | cons t rest ih => rw [everyOf, Bool.and_eq_true, ih, List.forall_mem_cons]

/-- What is asked of every type in fields is asked of the type of each field. -/
theorem everyIn_iff {fields : List (String × Ty)} :
    everyIn p fields = true ↔ ∀ x ∈ fields, x.2.every p = true := by
  induction fields with
  | nil => simp [everyIn]
  | cons x rest ih => rw [everyIn, Bool.and_eq_true, ih, List.forall_mem_cons]

end

def isEmptyUnion : Ty → Bool
  | union [] => true
  | _ => false

/-- No union in the type is without members. -/
def unionsInhabited (t : Ty) : Bool := t.every (!·.isEmptyUnion)

/-- A union has members, and so do the unions in them. -/
theorem unionsInhabited_union_iff {members : List Ty} :
    (union members).unionsInhabited = true ↔
      members ≠ [] ∧ ∀ t ∈ members, t.unionsInhabited = true := by
  rw [unionsInhabited, every, Bool.and_eq_true, everyOf_iff]
  cases members <;> simp [isEmptyUnion, unionsInhabited]

/-- The unions in a list type are those in its element type. -/
theorem unionsInhabited_list_iff {element : Ty} :
    (list element).unionsInhabited = true ↔ element.unionsInhabited = true := by
  simp [unionsInhabited, every, isEmptyUnion]

/-- The unions in a tuple type are those in its items. -/
theorem unionsInhabited_tuple_iff {items : List Ty} :
    (tuple items).unionsInhabited = true ↔ ∀ t ∈ items, t.unionsInhabited = true := by
  simp [unionsInhabited, every, everyOf_iff, isEmptyUnion]

/-- The unions in a record type are those in its fields. -/
theorem unionsInhabited_record_iff {fields : List (String × Ty)} :
    (record fields).unionsInhabited = true ↔ ∀ x ∈ fields, x.2.unionsInhabited = true := by
  rw [unionsInhabited, every, Bool.and_eq_true, everyIn_iff]
  simp [isEmptyUnion, unionsInhabited]

/-! ## Unions by their alternatives -/

mutual

/-- The types other than unions that a value of the type may have. -/
def alternatives : Ty → List Ty
  | union members => alternativesOf members
  | t => [t]

def alternativesOf : List Ty → List Ty
  | [] => []
  | t :: rest => alternatives t ++ alternativesOf rest

end

variable {e b a x : Ty}

/-- The alternatives of a union are those of its members, however deep unions are nested. -/
theorem mem_alternatives_union_iff {members : List Ty} :
    x ∈ (union members).alternatives ↔ ∃ t ∈ members, x ∈ t.alternatives := by
  rw [alternatives]
  induction members with
  | nil => simp [alternativesOf]
  | cons t rest ih => simp [alternativesOf, ih]

/-- No alternative is a union. -/
theorem not_isUnion_of_mem_alternatives (h : x ∈ a.alternatives) : x.isUnion = false := by
  induction a with
  | union members ih =>
    obtain ⟨t, ht, hx⟩ := mem_alternatives_union_iff.1 h
    exact ih t ht hx
  | _ =>
    obtain rfl := List.mem_singleton.1 h
    rfl

/-- The unions in an alternative are unions in the type. -/
theorem unionsInhabited_of_mem_alternatives (ha : a.unionsInhabited = true)
    (h : x ∈ a.alternatives) : x.unionsInhabited = true := by
  induction a with
  | union members ih =>
    obtain ⟨t, ht, hx⟩ := mem_alternatives_union_iff.1 h
    exact ih t ht ((unionsInhabited_union_iff.1 ha).2 t ht) hx
  | _ =>
    obtain rfl := List.mem_singleton.1 h
    exact ha

/-- A union is accepted by `any`, by an equal one, or member by member; the last asks for a member
at least. -/
theorem accepts_union_iff {members : List Ty} : e.accepts (union members) = true ↔
    e = any ∨ (e == union members) = true ∨
      members ≠ [] ∧ ∀ a ∈ members, e.accepts a = true := by
  cases e with
  | any => simp [accepts]
  | _ => simp [accepts, overMembers, overAllMembers_iff]

/-- A union accepts what one of its members does, unless a union is put to it. -/
theorem union_accepts_iff {members : List Ty} (ha : a.isUnion = false) :
    (union members).accepts a = true ↔ ∃ e ∈ members, e.accepts a = true := by
  cases a with
  | union => cases ha
  | _ => simp [accepts, overMembers, someAccepts_iff]

/-- What accepts a union accepts each of its alternatives. -/
theorem accepts_of_mem_alternatives (h : e.accepts a = true) (hx : x ∈ a.alternatives) :
    e.accepts x = true := by
  induction a generalizing e with
  | union members ih =>
    obtain ⟨t, ht, hxt⟩ := mem_alternatives_union_iff.1 hx
    rcases accepts_union_iff.1 h with rfl | heq | ⟨-, hall⟩
    · rw [accepts]
    · -- an equal union has a member that equals the one with the alternative
      cases e with
      | union es =>
        obtain ⟨as, has, hes⟩ := union_beq_iff.1 heq
        obtain rfl := union.inj has
        obtain ⟨m, hm, hmt⟩ := exists_mem_of_forall₂ hes ht
        exact (union_accepts_iff (not_isUnion_of_mem_alternatives hx)).2
          ⟨m, hm, ih t ht (accepts_of_beq hmt) hxt⟩
      | _ => simp at heq
    · exact ih t ht (hall t ht) hxt
  | _ =>
    obtain rfl := List.mem_singleton.1 hx
    exact h

/-- Here a union without members, which has no alternatives, must not occur. -/
theorem accepts_of_alternatives (ha : a.unionsInhabited = true)
    (h : ∀ x ∈ a.alternatives, e.accepts x = true) : e.accepts a = true := by
  induction a with
  | union members ih =>
    obtain ⟨hne, hmembers⟩ := unionsInhabited_union_iff.1 ha
    refine accepts_union_iff.2 (.inr (.inr ⟨hne, fun t ht => ih t ht (hmembers t ht) ?_⟩))
    intro x hx
    exact h x (mem_alternatives_union_iff.2 ⟨t, ht, hx⟩)
  | _ => exact h _ (.head _)

/-- What is no union is accepted by one of the alternatives. -/
theorem exists_alternative_accepts (ha : a.isUnion = false) (h : e.accepts a = true) :
    ∃ x ∈ e.alternatives, x.accepts a = true := by
  induction e with
  | union members ih =>
    obtain ⟨m, hm, hma⟩ := (union_accepts_iff ha).1 h
    obtain ⟨x, hx, hxa⟩ := ih m hm hma
    exact ⟨x, mem_alternatives_union_iff.2 ⟨m, hm, hx⟩, hxa⟩
  | _ => exact ⟨_, .head _, h⟩

/-- A literal is accepted where its value is admitted. -/
theorem accepts_literal_iff {v : Value} : e.accepts (literal v) = true ↔ e.admits v = true := by
  constructor
  · intro h
    exact covers_of_accepts h v (literal_admits_iff.2 v.beq_refl)
  · intro h
    induction e with
    | union members ih =>
      obtain ⟨m, hm, hv⟩ := union_admits_iff.1 h
      exact (union_accepts_iff rfl).2 ⟨m, hm, ih m hm hv⟩
    | _ => simp [accepts, overMembers, acceptsLiteral, h]

/-! ## Plain types -/

/-- Neither a union nor a literal. -/
def isPlain : Ty → Bool
  | union _ => false
  | literal _ => false
  | _ => true

/-- A plain type is no union. -/
theorem not_isUnion_of_isPlain (h : a.isPlain = true) : a.isUnion = false := by
  cases a with
  | union members => cases h
  | _ => rfl

/-- What is no union is a literal or plain. -/
theorem exists_literal_or_isPlain (h : a.isUnion = false) :
    (∃ v, a = literal v) ∨ a.isPlain = true := by
  cases a with
  | union members => cases h
  | literal v => exact .inl ⟨v, rfl⟩
  | _ => exact .inr rfl

/-- A literal accepts literals only. -/
theorem not_literal_accepts {v : Value} (ha : a.isPlain = true) :
    ¬ (literal v).accepts a = true := by
  cases a with
  | union | literal => cases ha
  | _ => simp [accepts, overMembers, acceptsLiteral]

/-- Where literals are the only other rule, a plain type is accepted by equality alone. -/
theorem beq_of_overMembers (ha : a.isPlain = true)
    (h : overMembers e (acceptsLiteral e) a = true) : (e == a) = true := by
  cases a with
  | union | literal => cases ha
  | _ => simpa [overMembers, acceptsLiteral] using h

/-- Of plain types `decimal` accepts itself and `int`. -/
theorem decimal_accepts_iff (ha : a.isPlain = true) :
    decimal.accepts a = true ↔ a = decimal ∨ a = int := by
  cases a with
  | union | literal => cases ha
  | _ => simp [accepts, overMembers, acceptsLiteral]

/-- Of plain types a list type accepts list types, by their elements. -/
theorem list_accepts_iff (ha : a.isPlain = true) :
    (list e).accepts a = true ↔ ∃ b, a = list b ∧ e.accepts b = true := by
  cases a with
  | union | literal => cases ha
  | list b => simpa [accepts, overMembers] using accepts_of_beq
  | _ => simp [accepts, overMembers, acceptsLiteral]

/-- Of plain types a tuple type accepts tuple types, item by item. -/
theorem tuple_accepts_iff {es : List Ty} (ha : a.isPlain = true) :
    (tuple es).accepts a = true ↔
      ∃ as, a = tuple as ∧ List.Forall₂ (fun e a => e.accepts a = true) es as := by
  cases a with
  | union | literal => cases ha
  | tuple as =>
    have hsame : List.Forall₂ (fun e a => (e == a) = true) es as →
        List.Forall₂ (fun e a => e.accepts a = true) es as := .imp fun _ _ => accepts_of_beq
    simpa [accepts, overMembers, eachAccepts_iff] using hsame
  | _ => simp [accepts, overMembers, acceptsLiteral]

/-- The fields are equal, or each one that is expected is there with a type that is accepted.  The
former does not entail the latter for a field that is declared twice. -/
def RecordAccepts (es as : List (String × Ty)) : Prop :=
  Entries.Agree (fun e a => (e == a) = true) es as ∨
    ∀ x ∈ es, ∃ a, Entries.get? x.1 as = some a ∧ x.2.accepts a = true

/-- Of plain types a record type accepts record types, by their fields. -/
theorem record_accepts_iff {es : List (String × Ty)} (ha : a.isPlain = true) :
    (record es).accepts a = true ↔ ∃ as, a = record as ∧ RecordAccepts es as := by
  cases a with
  | union | literal => cases ha
  | record as => simp [accepts, overMembers, fieldsAccept_iff, RecordAccepts]
  | _ => simp [accepts, overMembers, acceptsLiteral]

/-! ## Chains of types -/

/-- What the type accepts may be passed on by a plain type that it accepts to another one. -/
def PassesOn (e : Ty) : Prop :=
  ∀ ⦃y x : Ty⦄, y.isPlain = true → x.isPlain = true → x.unionsInhabited = true →
    e.accepts y = true → y.accepts x = true → e.accepts x = true

/-- Plain types are enough, as unions go by their alternatives and literals by coverage. -/
theorem PassesOn.accepts (he : e.PassesOn) (ha : a.unionsInhabited = true)
    (heb : e.accepts b = true) (hba : b.accepts a = true) : e.accepts a = true := by
  refine accepts_of_alternatives ha fun x hx => ?_
  have hbx : b.accepts x = true := accepts_of_mem_alternatives hba hx
  have hunion := not_isUnion_of_mem_alternatives hx
  rcases exists_literal_or_isPlain hunion with ⟨v, rfl⟩ | hplainx
  · rw [accepts_literal_iff] at hbx ⊢
    exact covers_of_accepts heb v hbx
  · obtain ⟨y, hy, hyx⟩ := exists_alternative_accepts hunion hbx
    have hey : e.accepts y = true := accepts_of_mem_alternatives heb hy
    rcases exists_literal_or_isPlain (not_isUnion_of_mem_alternatives hy) with ⟨v, rfl⟩ | hplainy
    · exact absurd hyx (not_literal_accepts hplainx)
    · exact he hplainy hplainx (unionsInhabited_of_mem_alternatives ha hx) hey hyx

/-- Acceptance is passed on item by item in tuples. -/
theorem forall₂_accepts_trans {es bs as : List Ty} (hes : ∀ e ∈ es, e.PassesOn)
    (has : ∀ a ∈ as, a.unionsInhabited = true)
    (heb : List.Forall₂ (fun e b => e.accepts b = true) es bs)
    (hba : List.Forall₂ (fun b a => b.accepts a = true) bs as) :
    List.Forall₂ (fun e a => e.accepts a = true) es as := by
  have hitems := (List.forall₂_and_left as bs).2 ⟨has, hba.flip⟩
  refine forall₂_imp_of_mem (forall₂_comp heb hitems.flip) fun e he a => ?_
  rintro ⟨b, heb, ha, hba⟩
  exact (hes e he).accepts ha heb hba

/-- Acceptance is passed on field by field in records, also where one of the steps is equality. -/
theorem RecordAccepts.trans {es bs as : List (String × Ty)} (hes : ∀ x ∈ es, x.2.PassesOn)
    (has : ∀ z ∈ as, z.2.unionsInhabited = true) (heb : RecordAccepts es bs)
    (hba : RecordAccepts bs as) : RecordAccepts es as := by
  have hinhabited : ∀ {n a}, Entries.get? n as = some a → a.unionsInhabited = true :=
    fun hget => has _ (Entries.mem_of_get? hget)
  -- equal fields stand in the same place, and fields that are accepted are looked up by name
  obtain ⟨heb | heb, hba | hba⟩ := And.intro heb hba
  · refine .inl ((forall₂_comp heb hba).imp ?_)
    rintro x z ⟨y, ⟨hxy, heb⟩, hyz, hba⟩
    exact ⟨hxy.trans hyz, beq_trans heb hba⟩
  · refine .inr fun x hx => ?_
    obtain ⟨y, hy, hxy, heb⟩ := exists_mem_of_forall₂ heb.flip hx
    obtain ⟨a, ha, hba⟩ := hba y hy
    exact ⟨a, hxy ▸ ha, (hes x hx).accepts (hinhabited ha) (accepts_of_beq heb) hba⟩
  · refine .inr fun x hx => ?_
    obtain ⟨b, hb, heb⟩ := heb x hx
    obtain ⟨a, ha, hba⟩ := hba.exists_get? hb
    exact ⟨a, ha, (hes x hx).accepts (hinhabited ha) heb (accepts_of_beq hba)⟩
  · refine .inr fun x hx => ?_
    obtain ⟨b, hb, heb⟩ := heb x hx
    obtain ⟨a, ha, hba⟩ := hba _ (Entries.mem_of_get? hb)
    exact ⟨a, ha, (hes x hx).accepts (hinhabited ha) heb hba⟩

/-- Every type passes on what it accepts, by induction on the type: each kind of plain type goes
back to the parts it has. -/
theorem passesOn (e : Ty) : e.PassesOn := by
  intro y x hy hx hinhabited hey hyx
  induction e generalizing y x with
  | any => rw [accepts]
  | null | bool | int | text | date | dateTime =>
    have heq := beq_of_overMembers hy (by simpa only [accepts] using hey)
    simp only [null_beq_iff, bool_beq_iff, int_beq_iff, text_beq_iff, date_beq_iff,
      dateTime_beq_iff] at heq
    rwa [← heq]
  | literal v => exact absurd hey (not_literal_accepts hy)
  | decimal =>
    rcases (decimal_accepts_iff hy).1 hey with rfl | rfl
    · exact hyx
    · have heq := beq_of_overMembers hx (by simpa only [accepts] using hyx)
      exact (decimal_accepts_iff hx).2 (.inr (int_beq_iff.1 heq))
  | union members ih =>
    obtain ⟨m, hm, hmy⟩ := (union_accepts_iff (not_isUnion_of_isPlain hy)).1 hey
    have hmx : m.accepts x = true := ih m hm hy hx hinhabited hmy hyx
    exact (union_accepts_iff (not_isUnion_of_isPlain hx)).2 ⟨m, hm, hmx⟩
  | list e ih =>
    obtain ⟨b, rfl, heb⟩ := (list_accepts_iff hy).1 hey
    obtain ⟨a, rfl, hba⟩ := (list_accepts_iff hx).1 hyx
    have he : e.PassesOn := @ih
    have ha := unionsInhabited_list_iff.1 hinhabited
    exact (list_accepts_iff hx).2 ⟨a, rfl, he.accepts ha heb hba⟩
  | tuple es ih =>
    obtain ⟨bs, rfl, heb⟩ := (tuple_accepts_iff hy).1 hey
    obtain ⟨as, rfl, hba⟩ := (tuple_accepts_iff hx).1 hyx
    have has := unionsInhabited_tuple_iff.1 hinhabited
    exact (tuple_accepts_iff hx).2 ⟨as, rfl, forall₂_accepts_trans @ih has heb hba⟩
  | record es ih =>
    obtain ⟨bs, rfl, heb⟩ := (record_accepts_iff hy).1 hey
    obtain ⟨as, rfl, hba⟩ := (record_accepts_iff hx).1 hyx
    have has := unionsInhabited_record_iff.1 hinhabited
    exact (record_accepts_iff hx).2 ⟨as, rfl, heb.trans @ih has hba⟩

/-- Types accept themselves, and along a chain of three types the first accepts the last, unless
there is a union without members in the last, at any depth. -/
theorem accepts_preorder :
    (∀ t : Ty, t.accepts t = true) ∧
    ∀ e b a : Ty, a.unionsInhabited = true → e.accepts b = true → b.accepts a = true →
      e.accepts a = true :=
  ⟨accepts_self, fun e _ _ => e.passesOn.accepts⟩

/-- A chain that needs widening, members on both sides, literals and a field more, and a record
that declares a field twice. -/
theorem accepts_preorder_invoice :
    let e := record [("total", optional decimal)]
    let b := record [("total", optional int), ("id", text)]
    let a := record [("id", literal (.text "x")), ("total", union [literal (.int 5), null])]
    let twice := record [("n", int), ("n", text)]
    (a.unionsInhabited = true ∧ e.accepts b = true ∧ b.accepts a = true ∧ e.accepts a = true) ∧
      twice.accepts twice = true := by
  intro e b a twice
  have ha : a.unionsInhabited = true := by decide
  have heb : e.accepts b = true := by decide +kernel
  have hba : b.accepts a = true := by decide +kernel
  exact ⟨⟨ha, heb, hba, accepts_preorder.2 e b a ha heb hba⟩, accepts_preorder.1 twice⟩

/-- A union without members ends a chain, as nothing but `any` and its equals accept it. -/
example : (union [any]).accepts any = true ∧ any.accepts (union []) = true ∧
    (union [any]).accepts (union []) = false := by
  decide +kernel

end RecordRules.Ty
