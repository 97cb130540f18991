import RecordRules.Proofs.Calendar.Text
import RecordRules.Proofs.Decimal.Text
import RecordRules.Proofs.Outcome
import RecordRules.Proofs.Value.Equality
import RecordRules.Value.Json

/-!
# Values and their JSON

A value that has JSON is read back from it exactly if no record in it holds a text under the key
of tags (`ofJson_toJson_iff`): such a record is written like any other, but is read as a tagged
value or not at all.  What is read back is equal to the value, and differs from it at most in the
signs of zeros (`ofJson_of_toJson`).
-/

namespace RecordRules

/-- A function over the values of entries succeeds when it does on each, and then keeps the keys. -/
theorem mapM_snd_eq_ok_iff {ε α β : Type} {f : α → Except ε β} {as : List (String × α)}
    {bs : List (String × β)} :
    (as.mapM fun x => do return (x.1, ← f x.2)) = .ok bs ↔
      Entries.Agree (fun a b => f a = .ok b) as bs := by
  have hstep : ∀ (x : String × α) (y : String × β),
      (do return (x.1, ← f x.2)) = Except.ok y ↔ x.1 = y.1 ∧ f x.2 = .ok y.2 := by
    intro x y
    simp only [RecordRules.bind_eq_ok_iff, pure_eq_ok_iff, Prod.ext_iff]
    constructor
    · rintro ⟨b, hb, hname, rfl⟩
      exact ⟨hname, hb⟩
    · rintro ⟨hname, hb⟩
      exact ⟨y.2, hb, hname, rfl⟩
  simp only [mapM_eq_ok_iff, hstep]

namespace Value

variable {v w : Value} {j : Json}

/-! ## Parts -/

/-- A list of values is written when each of them is. -/
theorem toJsonItems_eq_ok_iff {vs : List Value} {js : List Json} :
    toJsonItems vs = .ok js ↔ List.Forall₂ (fun v j => v.toJson = .ok j) vs js := by
  have hmapM : toJsonItems vs = vs.mapM toJson := by
    induction vs with
    | nil => rfl
    | cons v rest ih => rw [toJsonItems, ih, List.mapM_cons]
  rw [hmapM, mapM_eq_ok_iff]

/-- A list of values is read when each of them is. -/
theorem ofItems_eq_ok_iff {js : List Json} {vs : List Value} :
    ofItems js = .ok vs ↔ List.Forall₂ (fun j v => ofJson j = .ok v) js vs := by
  have hmapM : ofItems js = js.mapM ofJson := by
    induction js with
    | nil => rfl
    | cons j rest ih => rw [ofItems, ih, List.mapM_cons]
  rw [hmapM, mapM_eq_ok_iff]

/-- The fields of a record are written one after the other, each under its name. -/
theorem toJsonFields_eq_ok_iff {last : Option String} {fields : Fields last}
    {members : List (String × Json)} :
    toJsonFields fields = .ok members ↔
      Entries.Agree (fun v j => v.toJson = .ok j) fields.toList members := by
  have hmapM : toJsonFields fields =
      fields.toList.mapM fun x => do return (x.1, ← toJson x.2) := by
    induction fields with
    | nil => rfl
    | cons name after v rest ih => simp [toJsonFields, Fields.toList, ih]
  rw [hmapM, mapM_snd_eq_ok_iff]

/-- The members of an object are read one after the other, each under its key. -/
theorem ofMembers_eq_ok_iff {members : List (String × Json)} {fields : List (String × Value)} :
    ofMembers members = .ok fields ↔
      Entries.Agree (fun j v => ofJson j = .ok v) members fields := by
  have hmapM : ofMembers members = members.mapM fun x => do return (x.1, ← ofJson x.2) := by
    induction members with
    | nil => rfl
    | cons x rest ih => simp [ofMembers, ih]
  rw [hmapM, mapM_snd_eq_ok_iff]

/-! ## What a value is written as -/

@[simp] theorem list_toJson_eq_ok_iff {vs : List Value} :
    (list vs).toJson = .ok j ↔
      ∃ js, List.Forall₂ (fun v j => v.toJson = .ok j) vs js ∧ .arr js = j := by
  simp only [toJson, map_eq_ok_iff, toJsonItems_eq_ok_iff]

@[simp] theorem record_toJson_eq_ok_iff {fields : Fields none} :
    (record fields).toJson = .ok j ↔
      ∃ members, Entries.Agree (fun v j => v.toJson = .ok j) fields.toList members ∧
        .obj members = j := by
  simp only [toJson, map_eq_ok_iff, toJsonFields_eq_ok_iff]

/-- A date-time can be written when its offset can, and then stands under a tag. -/
@[simp] theorem dateTime_toJson_eq_ok_iff {t : DateTime} :
    (dateTime t).toJson = .ok j ↔ ∃ s, t.rfc3339? = some s ∧ tagged "DateTime" s = j := by
  rw [toJson]
  cases t.rfc3339? <;> simp

/-- Only texts are written as strings. -/
theorem asStr?_of_toJson (h : v.toJson = .ok j) : j.asStr? = v.asText? := by
  cases v with
  | list vs =>
    obtain ⟨js, -, rfl⟩ := list_toJson_eq_ok_iff.1 h
    rfl
  | record fields =>
    obtain ⟨members, -, rfl⟩ := record_toJson_eq_ok_iff.1 h
    rfl
  | dateTime t =>
    obtain ⟨s, -, rfl⟩ := dateTime_toJson_eq_ok_iff.1 h
    rfl
  | _ =>
    obtain rfl := Except.ok.inj h
    rfl

/-! ## The parts of a value -/

mutual

/-- Whether the value and all its parts pass, at any depth. -/
def everyPart (p : Value → Bool) : Value → Bool
  | list items => p (list items) && everyItem p items
  | record fields => p (record fields) && everyField p fields
  | v => p v

def everyItem (p : Value → Bool) : List Value → Bool
  | [] => true
  | v :: rest => everyPart p v && everyItem p rest

def everyField (p : Value → Bool) : {last : Option String} → Fields last → Bool
  | _, .nil => true
  | _, .cons _ _ v rest => everyPart p v && everyField p rest

end

section

variable {p : Value → Bool}

/-- The parts of a list are the list itself and the parts of its items. -/
theorem everyPart_list_iff {vs : List Value} :
    (list vs).everyPart p = true ↔ p (list vs) = true ∧ ∀ v ∈ vs, v.everyPart p = true := by
  have hall : everyItem p vs = true ↔ ∀ v ∈ vs, v.everyPart p = true := by
    induction vs with
    | nil => simp [everyItem]
    | cons v rest ih => rw [everyItem, Bool.and_eq_true, ih, List.forall_mem_cons]
  rw [everyPart, Bool.and_eq_true, hall]

/-- What is asked of every field is asked of each entry in the list of them. -/
theorem everyField_iff {last : Option String} {fields : Fields last} :
    everyField p fields = true ↔ ∀ x ∈ fields.toList, x.2.everyPart p = true := by
  induction fields with
  | nil => simp [everyField, Fields.toList]
  | cons name after v rest ih =>
    rw [everyField, Bool.and_eq_true, ih, Fields.toList, List.forall_mem_cons]

/-- The parts of a record are the record itself and the parts of its fields. -/
theorem everyPart_record_iff {fields : Fields none} :
    (record fields).everyPart p = true ↔
      p (record fields) = true ∧ ∀ x ∈ fields.toList, x.2.everyPart p = true := by
  rw [everyPart, Bool.and_eq_true, everyField_iff]

end

/-! ## The signs of zeros -/

/-- No decimal in the value is a zero with a sign. -/
def zerosUnsigned (v : Value) : Bool :=
  v.everyPart fun
    | decimal d => !d.isNegativeZero
    | _ => true

/-- No zero in a list is negative when none is in its items. -/
theorem list_zerosUnsigned_iff {vs : List Value} :
    (list vs).zerosUnsigned = true ↔ ∀ v ∈ vs, v.zerosUnsigned = true :=
  everyPart_list_iff.trans (and_iff_right rfl)

/-- No zero in a record is negative when none is in its fields. -/
theorem record_zerosUnsigned_iff {fields : Fields none} :
    (record fields).zerosUnsigned = true ↔ ∀ x ∈ fields.toList, x.2.zerosUnsigned = true :=
  everyPart_record_iff.trans (and_iff_right rfl)

mutual

/-- The value that is read back: its zeros have lost their signs. -/
def asRead : Value → Value
  | decimal d => decimal d.asRead
  | list items => list (itemsAsRead items)
  | record fields => record (fieldsAsRead fields)
  | v => v

def itemsAsRead : List Value → List Value
  | [] => []
  | v :: rest => asRead v :: itemsAsRead rest

def fieldsAsRead : {last : Option String} → Fields last → Fields last
  | _, .nil => .nil
  | _, .cons name after v rest => .cons name after (asRead v) (fieldsAsRead rest)

end

/-- A list is read back item by item. -/
theorem itemsAsRead_eq (vs : List Value) : itemsAsRead vs = vs.map asRead := by
  induction vs with
  | nil => rfl
  | cons v rest ih => rw [itemsAsRead, ih, List.map_cons]

/-- A record is read back field by field, under the same names. -/
theorem toList_fieldsAsRead {last : Option String} (fields : Fields last) :
    (fieldsAsRead fields).toList = fields.toList.map fun x => (x.1, x.2.asRead) := by
  induction fields with
  | nil => rfl
  | cons name after v rest ih =>
    rw [fieldsAsRead, Fields.toList, ih, Fields.toList, List.map_cons]

/-- Reading back loses nothing but the sign of zeros, so the value that is read equals the one
written. -/
theorem asRead_beq (v : Value) : (v.asRead == v) = true := by
  induction v with
  | decimal d => exact decimal_beq_iff.2 ⟨d, rfl, (Decimal.beq_iff _ _).1 d.asRead_beq⟩
  | list items ih =>
    refine list_beq_iff.2 ⟨items, rfl, ?_⟩
    rw [itemsAsRead_eq, List.forall₂_map_left_iff]
    exact List.forall₂_same.2 ih
  | record fields ih =>
    refine record_beq_iff.2 ⟨fields, rfl, ?_⟩
    rw [toList_fieldsAsRead]
    exact List.forall₂_map_left_iff.2 (List.forall₂_same.2 fun x hx => ⟨rfl, ih x hx⟩)
  | _ => exact beq_refl _

/-- Arguments that are read back equal those that were written. -/
theorem map_asRead_beq (vs : List Value) : (vs.map asRead == vs) = true :=
  list_beq_iff_forall₂.2
    (List.forall₂_map_left_iff.2 (List.forall₂_same.2 fun v _ => v.asRead_beq))

/-- Only signs of zeros are lost. -/
theorem asRead_of_zerosUnsigned (h : v.zerosUnsigned = true) : v.asRead = v := by
  induction v with
  | decimal d =>
    have hd : d.isNegativeZero = false := by simpa [zerosUnsigned, everyPart] using h
    rw [asRead, Decimal.asRead_of_not_isNegativeZero hd]
  | list items ih =>
    have hitems : items.map asRead = items := map_eq_self fun v hv =>
      ih v hv (list_zerosUnsigned_iff.1 h v hv)
    rw [asRead, itemsAsRead_eq, hitems]
  | record fields ih =>
    have hfields : fields.toList.map (fun x => (x.1, x.2.asRead)) = fields.toList :=
      map_eq_self fun x hx => by rw [ih x hx (record_zerosUnsigned_iff.1 h x hx)]
    rw [asRead, Fields.toList_injective ((toList_fieldsAsRead fields).trans hfields)]
  | _ => rfl

/-- Arguments without negative zeros are read back as the very same. -/
theorem map_asRead_of_zerosUnsigned {vs : List Value}
    (h : ∀ v ∈ vs, v.zerosUnsigned = true) : vs.map asRead = vs :=
  map_eq_self fun v hv => asRead_of_zerosUnsigned (h v hv)

/-! ## Tags -/

/-- The text under the key of tags. -/
def tagText? (fields : Fields none) : Option String :=
  (Entries.get? tagKey fields.toList).bind asText?

/-- No record in the value holds a text under the key of tags. -/
def tagFree (v : Value) : Bool :=
  v.everyPart fun
    | record fields => (tagText? fields).isNone
    | _ => true

/-- A list is free of tags when its items are. -/
theorem list_tagFree_iff {vs : List Value} :
    (list vs).tagFree = true ↔ ∀ v ∈ vs, v.tagFree = true :=
  everyPart_list_iff.trans (and_iff_right rfl)

/-- A record is free of tags when it has no text under their key and its fields are free of them. -/
theorem record_tagFree_iff {fields : Fields none} :
    (record fields).tagFree = true ↔
      tagText? fields = none ∧ ∀ x ∈ fields.toList, x.2.tagFree = true := by
  simp [tagFree, everyPart_record_iff]

/-- A record is taken for a tagged value by the text under the key of tags, if of its fields and
members only texts and strings belong together. -/
theorem tag?_of_agree {R : Value → Json → Prop}
    (hR : ∀ v j, R v j → j.asStr? = v.asText?) {parts : List (String × Value)}
    {members : List (String × Json)} (h : Entries.Agree R parts members) :
    tag? members = (Entries.get? tagKey parts).bind asText? := by
  have hget := h.get? tagKey
  unfold tag?
  revert hget
  generalize Entries.get? tagKey parts = v?
  generalize Entries.get? tagKey members = j?
  rintro (hvj | _)
  · exact hR _ _ hvj
  · rfl

/-- The key of tags is looked up in the written members with the same answer as in the record. -/
theorem tag?_eq_tagText? {fields : Fields none} {members : List (String × Json)}
    (h : Entries.Agree (fun v j => v.toJson = .ok j) fields.toList members) :
    tag? members = tagText? fields :=
  tag?_of_agree (fun _ _ => asStr?_of_toJson) h

/-- A tagged value is a decimal, a date or a point in time. -/
theorem ofTagged_eq_ok {tag : String} {members : List (String × Json)}
    (h : ofTagged tag members = .ok v) :
    (∃ s d, Decimal.ofText? s = some d ∧ v = decimal d) ∨ (∃ d, v = date d) ∨
      ∃ s t, DateTime.ofText? s = some t ∧ v = dateTime t := by
  unfold ofTagged at h
  split at h
  · next payload _ =>
    simp only [ofPayload] at h
    split at h
    · split at h
      · next d hd => exact .inl ⟨payload, d, hd, (Except.ok.inj h).symm⟩
      · cases h
    · split at h
      · exact .inr (.inl ⟨_, (Except.ok.inj h).symm⟩)
      · cases h
    · split at h
      · next t ht => exact .inr (.inr ⟨payload, t, ht, (Except.ok.inj h).symm⟩)
      · cases h
    · cases h
  · cases h

/-- What is read as a tagged value is no record. -/
theorem ne_record_of_ofTagged {tag : String} {members : List (String × Json)}
    (h : ofTagged tag members = .ok v) (fields : Fields none) : v ≠ record fields := by
  rcases ofTagged_eq_ok h with ⟨s, d, -, rfl⟩ | ⟨d, rfl⟩ | ⟨s, t, -, rfl⟩ <;> nofun

/-! ## Reading back -/

/-- An integer of 64 bits is read back as an integer, not as a decimal. -/
theorem ofJson_int (i : Int64) : ofJson (.int i.toInt) = .ok (int i) :=
  (if_pos ⟨i.le_toInt, i.toInt_lt⟩).trans (by rw [Int64.ofInt_toInt])

/-- An array is read as a list, whatever its items are. -/
theorem ofJson_arr (items : List Json) : ofJson (.arr items) = (ofItems items).map list := rfl

/-- An object is read as a record unless it has a text under the key of tags. -/
theorem ofJson_obj (members : List (String × Json)) :
    ofJson (.obj members) = match tag? members with
      | some tag => ofTagged tag members
      | none => (ofMembers members).map recordOf :=
  rfl

/-- What was written under a tag is read by that tag. -/
theorem ofJson_tagged (tag payload : String) :
    ofJson (tagged tag payload) = ofPayload tag payload :=
  rfl

/-- A value whose records have no texts under the key of tags is read back from its JSON, but for
the signs of zeros. -/
theorem ofJson_of_toJson (h : v.toJson = .ok j) (hv : v.tagFree = true) :
    ofJson j = .ok v.asRead := by
  induction v generalizing j with
  | null | bool | text =>
    obtain rfl := Except.ok.inj h
    rfl
  | int i =>
    obtain rfl := Except.ok.inj h
    exact ofJson_int i
  | decimal d =>
    obtain rfl := Except.ok.inj h
    simp only [ofJson_tagged, ofPayload, Decimal.ofText?_text, asRead]
  | date d =>
    obtain rfl := Except.ok.inj h
    simp only [ofJson_tagged, ofPayload, Date.ofText?_text, asRead]
  | dateTime t =>
    obtain ⟨s, hs, rfl⟩ := dateTime_toJson_eq_ok_iff.1 h
    simp only [ofJson_tagged, ofPayload, DateTime.ofText?_of_rfc3339? hs, asRead]
  | list vs ih =>
    obtain ⟨js, hjs, rfl⟩ := list_toJson_eq_ok_iff.1 h
    have hitems : ofItems js = .ok (vs.map asRead) := by
      rw [ofItems_eq_ok_iff, List.forall₂_map_right_iff]
      exact .flip (forall₂_imp_of_mem hjs fun v hmem j hvj =>
        ih v hmem hvj (list_tagFree_iff.1 hv v hmem))
    rw [ofJson_arr, hitems, asRead, itemsAsRead_eq]
    rfl
  | record fields ih =>
    obtain ⟨members, hmembers, rfl⟩ := record_toJson_eq_ok_iff.1 h
    obtain ⟨htag, hfields⟩ := record_tagFree_iff.1 hv
    -- the fields are read back in the order of their names, as they were written
    have hparts : ofMembers members = .ok (fieldsAsRead fields).toList := by
      rw [ofMembers_eq_ok_iff, toList_fieldsAsRead]
      refine List.forall₂_map_right_iff.2 (.flip (forall₂_imp_of_mem hmembers ?_))
      rintro x hmem y ⟨hname, hxy⟩
      exact ⟨hname.symm, ih x hmem hxy (hfields x hmem)⟩
    simp only [ofJson_obj, tag?_eq_tagText? hmembers, htag, hparts, Except.map, recordOf,
      Fields.ofList_toList, asRead]

/-- Only such a value is read back. -/
theorem tagFree_of_ofJson (h : v.toJson = .ok j) (hw : ofJson j = .ok w)
    (heq : (w == v) = true) : v.tagFree = true := by
  induction v generalizing j w with
  | list vs ih =>
    obtain ⟨js, hjs, rfl⟩ := list_toJson_eq_ok_iff.1 h
    obtain ⟨ws, hws, rfl⟩ := map_eq_ok_iff.1 hw
    obtain ⟨_, hvs, hitems⟩ := list_beq_iff.1 heq
    obtain rfl := Value.list.inj hvs
    have hround := forall₂_comp (forall₂_comp hjs (ofItems_eq_ok_iff.1 hws)) hitems
    rw [list_tagFree_iff]
    intro v hv
    obtain ⟨w, ⟨j, hj, hw⟩, heq⟩ := List.forall₂_same.1 hround v hv
    exact ih v hv hj hw heq
  | record fields ih =>
    obtain ⟨members, hmembers, rfl⟩ := record_toJson_eq_ok_iff.1 h
    have heq := beq_symm heq
    obtain ⟨ws, rfl, hfields⟩ := record_beq_iff.1 heq
    rw [ofJson_obj, tag?_eq_tagText? hmembers] at hw
    cases htag : tagText? fields with
    | some tag =>
      rw [htag] at hw
      exact absurd rfl (ne_record_of_ofTagged hw ws)
    | none =>
      rw [htag] at hw
      obtain ⟨parts, hparts, hws⟩ := map_eq_ok_iff.1 hw
      obtain rfl := Value.record.inj hws
      have hread := ofMembers_eq_ok_iff.1 hparts
      -- the members were written in order, so no part is lost when they become fields again
      rw [Fields.toList_ofList ((fields.ascending_toList.of_agree hmembers).of_agree hread)]
        at hfields
      have hround := forall₂_comp (forall₂_comp hmembers hread) hfields.flip
      refine record_tagFree_iff.2 ⟨htag, fun x hx => ?_⟩
      obtain ⟨y, ⟨m, ⟨-, hm⟩, -, hy⟩, -, hyx⟩ := List.forall₂_same.1 hround x hx
      exact ih x hx hm hy (beq_symm hyx)
  | _ => rfl

/-- A value is read back from its JSON exactly if no record in it holds a text under the key of
tags. -/
theorem ofJson_toJson_iff (h : v.toJson = .ok j) :
    (∃ w, ofJson j = .ok w ∧ (w == v) = true) ↔ v.tagFree = true := by
  constructor
  · rintro ⟨w, hw, heq⟩
    exact tagFree_of_ofJson h hw heq
  · intro hv
    exact ⟨v.asRead, ofJson_of_toJson h hv, v.asRead_beq⟩

/-- A point in time, a zero with a sign and a record whose `__type` is no text, at different
depths. -/
theorem ofJson_toJson_iff_nested :
    let v := recordOf [
      ("at", dateTime ⟨⟨2024, 2, 29, by decide⟩, 23, 59, 59, 120000000, -5400, by decide⟩),
      ("prices", list [decimal ⟨true, 0, 2, by decide, by decide⟩, recordOf [(tagKey, int 7)]])]
    ∃ j, v.toJson = .ok j ∧ v.tagFree = true ∧ ∃ w, ofJson j = .ok w ∧ (w == v) = true := by
  refine ⟨_, rfl, rfl, (ofJson_toJson_iff ?_).2 rfl⟩
  rfl

/-- A record that keeps a text of its own under the key of tags is written, but its JSON is refused
as that of a tagged value without payload. -/
theorem exists_toJson_ofJson_missingPayload :
    ∃ j, (recordOf [(tagKey, text "Invoice"), ("number", int 7)]).toJson = .ok j ∧
      ofJson j = .error (.missingPayload "Invoice") :=
  ⟨_, rfl, rfl⟩

end Value

end RecordRules
