import RecordRules.Proofs.Value.Json

/-!
# Values that were read

A value that was read from JSON can be written, whatever the JSON was, no record in it holds a text
under the key of tags, and no zero in it has a sign (`Value.storable_of_ofJson`).  So it is read
back from what is written for it.
-/

namespace RecordRules

namespace Json

/-- The items of an array, or the values of the members of an object. -/
def parts : Json → List Json
  | arr items => items
  | obj members => members.map Prod.snd
  | _ => []

/-- Induction over JSON: a statement holds if it holds of JSON whose parts have it. -/
@[elab_as_elim]
theorem induct_parts {motive : Json → Prop} (parts : ∀ j, (∀ k ∈ j.parts, motive k) → motive j)
    (j : Json) : motive j :=
  @Json.rec motive (fun items => ∀ k ∈ items, motive k)
    (fun members => ∀ k ∈ members.map Prod.snd, motive k) (fun m => motive m.2)
    (parts .null nofun) (fun b => parts (.bool b) nofun) (fun n => parts (.int n) nofun)
    (fun x => parts (.float x) nofun) (fun s => parts (.str s) nofun)
    (fun items => parts (.arr items)) (fun members => parts (.obj members)) nofun
    (fun _ _ hj hrest => List.forall_mem_cons.2 ⟨hj, hrest⟩) nofun
    (fun _ _ hm hrest => List.forall_mem_cons.2 ⟨hm, hrest⟩) (fun _ _ hj => hj) j

end Json

namespace Value

variable {v : Value} {j : Json}

/-! ## What can be kept -/

/-- A value that can be written and is then read back as it is. -/
structure Storable (v : Value) : Prop where
  tagFree : v.tagFree = true
  zerosUnsigned : v.zerosUnsigned = true
  writable : ∃ j, v.toJson = .ok j

/-- A list can be kept when its items can. -/
theorem storable_list {vs : List Value} (h : ∀ v ∈ vs, v.Storable) : (list vs).Storable where
  tagFree := list_tagFree_iff.2 fun v hv => (h v hv).tagFree
  zerosUnsigned := list_zerosUnsigned_iff.2 fun v hv => (h v hv).zerosUnsigned
  writable := by
    obtain ⟨js, hjs⟩ := exists_forall₂_iff.2 fun v hv => (h v hv).writable
    exact ⟨.arr js, list_toJson_eq_ok_iff.2 ⟨js, hjs, rfl⟩⟩

/-- A record can be kept when its fields can and it cannot be mistaken for a tagged value. -/
theorem storable_record {fields : Fields none} (htag : tagText? fields = none)
    (h : ∀ x ∈ fields.toList, x.2.Storable) : (record fields).Storable where
  tagFree := record_tagFree_iff.2 ⟨htag, fun x hx => (h x hx).tagFree⟩
  zerosUnsigned := record_zerosUnsigned_iff.2 fun x hx => (h x hx).zerosUnsigned
  writable := by
    have hmembers : ∃ members,
        Entries.Agree (fun v j => v.toJson = .ok j) fields.toList members := by
      refine exists_forall₂_iff.2 fun x hx => ?_
      obtain ⟨j, hj⟩ := (h x hx).writable
      exact ⟨(x.1, j), rfl, hj⟩
    obtain ⟨members, hmembers⟩ := hmembers
    exact ⟨.obj members, record_toJson_eq_ok_iff.2 ⟨members, hmembers, rfl⟩⟩

/-- A decimal can be kept unless it is a negative zero, whose sign gets lost. -/
theorem storable_decimal {d : Decimal} (h : d.isNegativeZero = false) : (decimal d).Storable where
  tagFree := rfl
  zerosUnsigned := by simpa [Value.zerosUnsigned, everyPart] using h
  writable := ⟨_, rfl⟩

/-! ## What is read -/

/-- A number that is read is never a negative zero. -/
theorem ofNumber_eq_ok {text : String} (h : ofNumber text = .ok v) :
    ∃ d, v = decimal d ∧ d.isNegativeZero = false := by
  unfold ofNumber at h
  split at h
  · next d hd => exact ⟨d, (Except.ok.inj h).symm, Decimal.isNegativeZero_of_ofChars? hd⟩
  · cases h

/-- An integer is read as one when it fits into 64 bits, and as a decimal otherwise. -/
theorem ofJson_int_eq_ok {n : Int} (h : ofJson (.int n) = .ok v) :
    (∃ i, v = int i) ∨ ∃ d, v = decimal d ∧ d.isNegativeZero = false := by
  rcases ite_eq_iff.1 h with ⟨-, h⟩ | ⟨-, h⟩
  · exact .inl ⟨_, (Except.ok.inj h).symm⟩
  · exact .inr (ofNumber_eq_ok h)

/-- Only strings are read as texts. -/
theorem asStr?_of_ofJson (h : ofJson j = .ok v) : j.asStr? = v.asText? := by
  cases j with
  | int n =>
    rcases ofJson_int_eq_ok h with ⟨i, rfl⟩ | ⟨d, rfl, -⟩ <;> rfl
  | float x =>
    obtain ⟨d, rfl, -⟩ := ofNumber_eq_ok h
    rfl
  | arr items =>
    obtain ⟨vs, -, rfl⟩ := map_eq_ok_iff.1 h
    rfl
  | obj members =>
    rw [ofJson_obj] at h
    split at h
    · rcases ofTagged_eq_ok h with ⟨s, d, -, rfl⟩ | ⟨d, rfl⟩ | ⟨s, t, -, rfl⟩ <;> rfl
    · obtain ⟨fields, -, rfl⟩ := map_eq_ok_iff.1 h
      rfl
  | _ =>
    obtain rfl := Except.ok.inj h
    rfl

/-- Whatever is read under a tag can be written under it again. -/
theorem storable_of_ofTagged {tag : String} {members : List (String × Json)}
    (h : ofTagged tag members = .ok v) : v.Storable := by
  rcases ofTagged_eq_ok h with ⟨s, d, hd, rfl⟩ | ⟨d, rfl⟩ | ⟨s, t, ht, rfl⟩
  · exact storable_decimal (Decimal.isNegativeZero_of_ofChars? hd)
  · exact ⟨rfl, rfl, _, rfl⟩
  · obtain ⟨s', hs'⟩ := DateTime.exists_rfc3339?_of_ofText? ht
    exact ⟨rfl, rfl, _, dateTime_toJson_eq_ok_iff.2 ⟨s', hs', rfl⟩⟩

/-- A value that was read can be kept. -/
theorem storable_of_ofJson (h : ofJson j = .ok v) : v.Storable := by
  induction j using Json.induct_parts generalizing v with
  | parts j ih =>
    cases j with
    | null | bool | str =>
      obtain rfl := Except.ok.inj h
      exact ⟨rfl, rfl, _, rfl⟩
    | int n =>
      rcases ofJson_int_eq_ok h with ⟨i, rfl⟩ | ⟨d, rfl, hd⟩
      · exact ⟨rfl, rfl, _, rfl⟩
      · exact storable_decimal hd
    | float x =>
      obtain ⟨d, rfl, hd⟩ := ofNumber_eq_ok h
      exact storable_decimal hd
    | arr items =>
      obtain ⟨vs, hvs, rfl⟩ := map_eq_ok_iff.1 h
      refine storable_list fun v hv => ?_
      obtain ⟨j, hj, hjv⟩ := exists_mem_of_forall₂ (ofItems_eq_ok_iff.1 hvs) hv
      exact ih j hj hjv
    | obj members =>
      rw [ofJson_obj] at h
      split at h
      · exact storable_of_ofTagged h
      · next htag =>
        obtain ⟨fields, hfields, rfl⟩ := map_eq_ok_iff.1 h
        have hagree : Entries.Agree (fun j v => ofJson j = .ok v) members fields :=
          ofMembers_eq_ok_iff.1 hfields
        -- the fields have no text under the key of tags, since the members they were read from have
        -- none
        have htext : tagText? (.ofList fields) = none := by
          rw [tagText?, Fields.get?_ofList, ← htag,
            tag?_of_agree (fun v j => asStr?_of_ofJson) hagree.symm]
        refine storable_record htext fun x hx => ?_
        obtain ⟨m, hm, -, hmx⟩ := exists_mem_of_forall₂ hagree (Fields.mem_of_mem_ofList hx)
        exact ih m.2 (List.mem_map_of_mem hm) hmx

end Value

end RecordRules
