import RecordRules.Proofs.Ty.Admission

/-!
# Paths in types and in their values

A path leads from a type to the type of a part, and from a value to that part, or to `null` where
the value ends early.  The part is one of the type at the end of the path, or `null`
(`null_or_admits_atPath`).  It is `null` without being one of the type only behind a union or
past the end of a list, which a direct path avoids (`Direct.admits_atPath`); `atPath_sound` says
both.
-/

namespace RecordRules

/-! ## Values -/

namespace Value

/-- The part one step down, `null` where there is none. -/
def part (v : Value) (s : Step) : Value := (v.child? s).getD .null

@[simp] theorem null_child? (s : Step) : null.child? s = none := by
  cases s <;> rfl

/-- There is nothing below `null`. -/
@[simp] theorem null_atPath (p : Path) : null.atPath p = null := by
  cases p <;> simp [atPath]

/-- A path is followed step by step, and goes on at `null` where the value ends. -/
theorem atPath_cons (v : Value) (s : Step) (p : Path) :
    v.atPath (s :: p) = (v.part s).atPath p := by
  rw [atPath, part]
  cases v.child? s <;> simp

/-- The item at a position is `null` past the end of the list. -/
theorem part_list (vs : List Value) (i : UInt64) :
    (list vs).part (.index i) = vs[i.toNat]?.getD .null := rfl

end Value

namespace Ty

variable {t u : Ty} {v : Value} {s : Step} {p : Path}

/-! ## One step -/

/-- The members of a union other than `null`. -/
def proper (members : List Ty) : List Ty := members.filter (!·.isNull)

/-- A type is `null` when it is the type of that name. -/
theorem isNull_iff : t.isNull = true ↔ t = null := by
  cases t <;> simp [isNull]

/-- A step into a union goes on in its only member other than `null`. -/
theorem childOfSole?_eq_some {members : List Ty} (h : childOfSole? members s = some u) :
    ∃ m, proper members = [m] ∧ m.child? s = some u := by
  induction members with
  | nil => simp [childOfSole?] at h
  | cons m rest ih =>
    rw [childOfSole?] at h
    split at h
    · next hnull =>
      obtain ⟨m', hrest, hm'⟩ := ih h
      refine ⟨m', ?_, hm'⟩
      rw [proper, List.filter_cons_of_neg (by simp [hnull])]
      exact hrest
    · next hnull =>
      split at h
      · next hall =>
        refine ⟨m, ?_, h⟩
        have hrest : rest.filter (!·.isNull) = [] := by
          simpa [List.filter_eq_nil_iff] using List.all_eq_true.1 hall
        rw [proper, List.filter_cons_of_pos (by simp [hnull]), hrest]
      · cases h

/-- A value of a union with one proper member is `null` or one of that. -/
theorem null_or_admits_of_proper {members : List Ty} {m : Ty} (hm : proper members = [m])
    (hv : (union members).admits v = true) : v = .null ∨ m.admits v = true := by
  obtain ⟨t, ht, hv⟩ := union_admits_iff.1 hv
  by_cases hnull : t.isNull = true
  · rw [isNull_iff] at hnull
    subst hnull
    exact .inl (null_admits_iff.1 hv)
  · have hmem : t ∈ proper members := List.mem_filter.2 ⟨ht, by simpa using hnull⟩
    rw [hm, List.mem_singleton] at hmem
    exact .inr (hmem ▸ hv)

/-- A field of a record is of the type that the record type declares for it. -/
theorem admits_part_record {fields : List (String × Ty)}
    (hu : (record fields).child? s = some u) (hv : (record fields).admits v = true) :
    u.admits (v.part s) = true := by
  obtain ⟨vs, rfl, hvs⟩ := record_admits_iff.1 hv
  cases s with
  | index i => simp [child?] at hu
  | field n => exact hvs (n, u) (Entries.mem_of_get? (by simpa [child?] using hu))

/-- An item of a tuple is of the type at its position. -/
theorem admits_part_tuple {items : List Ty} (hu : (tuple items).child? s = some u)
    (hv : (tuple items).admits v = true) : u.admits (v.part s) = true := by
  obtain ⟨vs, rfl, hvs⟩ := tuple_admits_iff.1 hv
  cases s with
  | field n => simp [child?] at hu
  | index i =>
    have hitem : items[i.toNat]? = some u := by simpa [child?] using hu
    obtain ⟨hi, rfl⟩ := List.getElem?_eq_some_iff.1 hitem
    have hi' : i.toNat < vs.length := hvs.length_eq ▸ hi
    rw [Value.part_list, List.getElem?_eq_getElem hi']
    exact hvs.get hi hi'

/-- An item of a list is of the element type, but there need not be one at every position. -/
theorem null_or_admits_part_list {element : Ty} (hu : (list element).child? s = some u)
    (hv : (list element).admits v = true) : v.part s = .null ∨ u.admits (v.part s) = true := by
  obtain ⟨vs, rfl, hvs⟩ := list_admits_iff.1 hv
  cases s with
  | field n => simp [child?] at hu
  | index i =>
    obtain rfl : element = u := by simpa [child?] using hu
    rw [Value.part_list]
    cases hi : vs[i.toNat]? with
    | none => exact .inl rfl
    | some w => exact .inr (hvs w (List.mem_of_getElem? hi))

/-- One step from a type to another keeps to the values, or ends at `null`. -/
theorem null_or_admits_part (hu : t.child? s = some u) (hv : t.admits v = true) :
    v.part s = .null ∨ u.admits (v.part s) = true := by
  induction t generalizing v with
  | any =>
    obtain rfl : any = u := by simpa [child?] using hu
    exact .inr any_admits
  | union members ih =>
    rw [child?] at hu
    obtain ⟨m, hm, hchild⟩ := childOfSole?_eq_some hu
    have hmem : m ∈ members := List.mem_of_mem_filter (hm ▸ List.mem_singleton_self m)
    rcases null_or_admits_of_proper hm hv with rfl | hv
    · exact .inl rfl
    · exact ih m hmem hchild hv
  | list element => exact null_or_admits_part_list hu hv
  | tuple items => exact .inr (admits_part_tuple hu hv)
  | record fields => exact .inr (admits_part_record hu hv)
  | _ => cases s <;> simp [child?] at hu

/-! ## Whole paths -/

/-- A path into a type is followed step by step. -/
theorem atPath?_cons_eq_some (h : t.atPath? (s :: p) = some u) :
    ∃ m, t.child? s = some m ∧ m.atPath? p = some u := by
  rwa [atPath?, Option.bind_eq_some_iff] at h

/-- The part at the end of a path is one of the type there, or `null`. -/
theorem null_or_admits_atPath (hu : t.atPath? p = some u) (hv : t.admits v = true) :
    v.atPath p = .null ∨ u.admits (v.atPath p) = true := by
  induction p generalizing t v with
  | nil =>
    obtain rfl : t = u := Option.some.inj hu
    exact .inr hv
  | cons s p ih =>
    obtain ⟨m, hm, hu⟩ := atPath?_cons_eq_some hu
    rw [Value.atPath_cons]
    rcases null_or_admits_part hm hv with hnull | hv
    · rw [hnull]
      exact .inl (Value.null_atPath p)
    · exact ih hu hv

/-! ## Direct paths -/

def isUnion : Ty → Bool
  | union _ => true
  | _ => false

def isList : Ty → Bool
  | list _ => true
  | _ => false

/-- No step of the path goes on from a union or to an item of a list. -/
def Direct (t : Ty) (p : Path) : Prop :=
  ∀ q s rest, p = q ++ s :: rest → ∀ u, t.atPath? q = some u →
    u.isUnion = false ∧ (u.isList = true → ∀ i, s ≠ .index i)

/-- The empty path is direct. -/
theorem direct_nil (t : Ty) : t.Direct [] := by
  intro q s rest h
  cases q <;> cases h

/-- A path is direct when its first step is and the rest is from where this step leads. -/
theorem direct_cons_iff : t.Direct (s :: p) ↔
    (t.isUnion = false ∧ (t.isList = true → ∀ i, s ≠ .index i)) ∧
      ∀ u, t.child? s = some u → u.Direct p := by
  constructor
  · intro h
    refine ⟨h [] s p rfl t rfl, ?_⟩
    rintro u hu q s' rest rfl w hw
    refine h (s :: q) s' rest rfl w ?_
    rw [atPath?, hu]
    exact hw
  · rintro ⟨hhead, htail⟩ q s' rest heq w hw
    cases q with
    | nil =>
      obtain ⟨rfl, rfl⟩ := List.cons.inj heq
      obtain rfl : t = w := Option.some.inj hw
      exact hhead
    | cons s₁ q =>
      obtain ⟨rfl, rfl⟩ := List.cons.inj heq
      obtain ⟨m, hm, hw⟩ := atPath?_cons_eq_some hw
      exact htail m hm q s' rest rfl w hw

/-- A step neither into a union nor to an item of a list keeps to the values for certain. -/
theorem admits_part (hunion : t.isUnion = false) (hlist : t.isList = true → ∀ i, s ≠ .index i)
    (hu : t.child? s = some u) (hv : t.admits v = true) : u.admits (v.part s) = true := by
  cases t with
  | any =>
    obtain rfl : any = u := by simpa [child?] using hu
    exact any_admits
  | union members => cases hunion
  | list element =>
    cases s with
    | field n => simp [child?] at hu
    | index i => exact absurd rfl (hlist rfl i)
  | tuple items => exact admits_part_tuple hu hv
  | record fields => exact admits_part_record hu hv
  | _ => cases s <;> simp [child?] at hu

/-- The part at the end of a direct path is one of the type there. -/
theorem Direct.admits_atPath (hp : t.Direct p) (hu : t.atPath? p = some u)
    (hv : t.admits v = true) : u.admits (v.atPath p) = true := by
  induction p generalizing t v with
  | nil =>
    obtain rfl : t = u := Option.some.inj hu
    exact hv
  | cons s p ih =>
    obtain ⟨m, hm, hu⟩ := atPath?_cons_eq_some hu
    obtain ⟨⟨hunion, hlist⟩, htail⟩ := direct_cons_iff.1 hp
    rw [Value.atPath_cons]
    exact ih (htail m hm) hu (admits_part hunion hlist hm hv)

/-- A path is direct if no type on the way is a union, and no list is entered by a position. -/
theorem direct_iff : t.Direct p ↔
    (∀ q w, q <+: p → q ≠ p → t.atPath? q = some w → w.isUnion = false) ∧
      ∀ q i w, q ++ [.index i] <+: p → t.atPath? q = some w → w.isList = false := by
  constructor
  · intro h
    constructor
    · rintro q w ⟨rest, rfl⟩ hne hw
      obtain _ | ⟨s, rest⟩ := rest
      · exact absurd (List.append_nil q).symm hne
      · exact (h q s rest rfl w hw).1
    · rintro q i w ⟨rest, rfl⟩ hw
      have hlist := (h q (.index i) rest (by simp) w hw).2
      rw [← Bool.not_eq_true]
      exact fun hw => hlist hw i rfl
  · rintro ⟨hunion, hlist⟩ q s rest rfl w hw
    refine ⟨hunion q w (List.prefix_append q _) (by simp) hw, ?_⟩
    rintro hw' i rfl
    have hfalse := hlist q i w ⟨rest, by simp⟩ hw
    rw [hw'] at hfalse
    cases hfalse

/-- What stands in a value at a path of its type is `null` or of the type there.  It is of that
type if no type before the end of the path is a union and no position in a list is asked for. -/
theorem atPath_sound (hv : t.admits v = true) (hu : t.atPath? p = some u) :
    (v.atPath p = .null ∨ u.admits (v.atPath p) = true) ∧
    ((∀ q w, q <+: p → q ≠ p → t.atPath? q = some w → w.isUnion = false) →
      (∀ q i w, q ++ [.index i] <+: p → t.atPath? q = some w → w.isList = false) →
      u.admits (v.atPath p) = true) := by
  refine ⟨null_or_admits_atPath hu hv, fun hunion hlist => ?_⟩
  exact Direct.admits_atPath (direct_iff.2 ⟨hunion, hlist⟩) hu hv

/-- Behind the end of a list and behind a missing optional part there is `null`, which the types
there do not admit; a position in a tuple holds what its type says. -/
theorem atPath_sound_order :
    let t := record [("lines", list (record [("quantity", int)])),
      ("note", optional (record [("by", text)])), ("place", tuple [text, decimal])]
    let v : Value := .recordOf [("lines", .list []), ("place", .list [.text "x", .int 3])]
    let line : Path := [.field "lines", .index 4, .field "quantity"]
    let note : Path := [.field "note", .field "by"]
    let place : Path := [.field "place", .index 1]
    (t.admits v = true ∧ t.atPath? line = some int ∧ t.atPath? note = some text ∧
        t.atPath? place = some decimal) ∧
      ((v.atPath line = .null ∨ int.admits (v.atPath line) = true) ∧
        int.admits (v.atPath line) = false) ∧
      ((v.atPath note = .null ∨ text.admits (v.atPath note) = true) ∧
        text.admits (v.atPath note) = false) ∧
      decimal.admits (v.atPath place) = true := by
  intro t v line note place
  have hv : t.admits v = true := by decide
  have hline : t.atPath? line = some int := rfl
  have hnote : t.atPath? note = some text := rfl
  have hplace : t.atPath? place = some decimal := rfl
  have hdirect : t.Direct place := by
    refine direct_cons_iff.2 ⟨⟨rfl, nofun⟩, fun w hw => ?_⟩
    obtain rfl := Option.some.inj hw
    exact direct_cons_iff.2 ⟨⟨rfl, nofun⟩, fun _ _ => direct_nil _⟩
  obtain ⟨hunion, hlist⟩ := direct_iff.1 hdirect
  exact ⟨⟨hv, hline, hnote, hplace⟩, ⟨(atPath_sound hv hline).1, rfl⟩,
    ⟨(atPath_sound hv hnote).1, rfl⟩, (atPath_sound hv hplace).2 hunion hlist⟩

/-! ## Unions that stand for optional parts -/

mutual

/-- Each union in the type has exactly one member other than `null`. -/
def unionsProper : Ty → Bool
  | union members => (proper members).length == 1 && allUnionsProper members
  | list element => unionsProper element
  | tuple items => allUnionsProper items
  | record fields => fieldsUnionsProper fields
  | _ => true

def allUnionsProper : List Ty → Bool
  | [] => true
  | t :: rest => unionsProper t && allUnionsProper rest

def fieldsUnionsProper : List (String × Ty) → Bool
  | [] => true
  | (_, t) :: rest => unionsProper t && fieldsUnionsProper rest

end

/-- What is asked of the unions in a list of types is asked of those in each one there. -/
theorem allUnionsProper_iff {ts : List Ty} :
    allUnionsProper ts = true ↔ ∀ t ∈ ts, t.unionsProper = true := by
  induction ts with
  | nil => simp [allUnionsProper]
  | cons t rest ih => simp [allUnionsProper, ih]

/-- What is asked of the unions in fields is asked of those in the type of each field. -/
theorem fieldsUnionsProper_iff {fields : List (String × Ty)} :
    fieldsUnionsProper fields = true ↔ ∀ x ∈ fields, x.2.unionsProper = true := by
  induction fields with
  | nil => simp [fieldsUnionsProper]
  | cons x rest ih => rw [fieldsUnionsProper, Bool.and_eq_true, ih, List.forall_mem_cons]

/-- A union that is asked to be proper has exactly one member besides `null`. -/
theorem unionsProper_union {members : List Ty} (h : (union members).unionsProper = true) :
    ∃ m ∈ members, proper members = [m] ∧ m.unionsProper = true := by
  rw [unionsProper, Bool.and_eq_true, beq_iff_eq, List.length_eq_one_iff, allUnionsProper_iff] at h
  obtain ⟨⟨m, hm⟩, hall⟩ := h
  have hmem : m ∈ members := List.mem_of_mem_filter (hm ▸ List.mem_singleton_self m)
  exact ⟨m, hmem, hm, hall m hmem⟩

/-- One step down the unions are still proper. -/
theorem unionsProper_child (ht : t.unionsProper = true) (hu : t.child? s = some u) :
    u.unionsProper = true := by
  induction t with
  | any =>
    obtain rfl : any = u := by simpa [child?] using hu
    exact ht
  | union members ih =>
    rw [child?] at hu
    obtain ⟨m, hm, hchild⟩ := childOfSole?_eq_some hu
    obtain ⟨m', hmem, hm', hproper⟩ := unionsProper_union ht
    -- the step goes through the only member that is not `null`
    obtain rfl : m' = m := List.singleton_inj.1 (hm'.symm.trans hm)
    exact ih m' hmem hproper hchild
  | list element =>
    cases s with
    | field n => simp [child?] at hu
    | index i =>
      obtain rfl : element = u := by simpa [child?] using hu
      simpa [unionsProper] using ht
  | tuple items =>
    rw [unionsProper, allUnionsProper_iff] at ht
    cases s with
    | field n => simp [child?] at hu
    | index i => exact ht u (List.mem_of_getElem? (by simpa [child?] using hu))
  | record fields =>
    rw [unionsProper, fieldsUnionsProper_iff] at ht
    cases s with
    | index i => simp [child?] at hu
    | field n => exact ht (n, u) (Entries.mem_of_get? (by simpa [child?] using hu))
  | _ => cases s <;> simp [child?] at hu

/-- At the end of a path the unions are still proper. -/
theorem unionsProper_atPath (ht : t.unionsProper = true) (hu : t.atPath? p = some u) :
    u.unionsProper = true := by
  induction p generalizing t with
  | nil =>
    obtain rfl : t = u := Option.some.inj hu
    exact ht
  | cons s p ih =>
    obtain ⟨m, hm, hu⟩ := atPath?_cons_eq_some hu
    exact ih (unionsProper_child ht hm) hu

end Ty

end RecordRules
