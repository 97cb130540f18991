import RecordRules.Proofs.Rule.Json
import RecordRules.Proofs.Value.Decoding

/-!
# Rules that were read

Reading accepts far more JSON than is ever written, but what it makes of a filter can be kept: its
arguments can be written and are read back as they are (`Draft.storable_of_ofJson`).  What holds of
every filter that is read holds of all filters of a rule that is read
(`Rule.forall_leaves_of_ofJsonAt`).
-/

namespace RecordRules

/-! ## Readers of members -/

/-- A part that is missing or of the wrong shape is an error of the shape. -/
theorem DecodeError.orShape_eq_ok_iff {α : Type} {o : Option α} {a : α} :
    orShape o = .ok a ↔ o = some a := by
  cases o <;> simp [orShape]

/-! ## Single filters -/

/-- The arguments that are read were read from values of their own. -/
theorem exists_ofJson_of_readArguments {members : List (String × Json)} {vs : List Value}
    (h : readArguments members = .ok vs) {v : Value} (hv : v ∈ vs) :
    ∃ j, Value.ofJson j = .ok v := by
  unfold readArguments at h
  split at h
  · obtain rfl := Except.ok.inj h
    cases hv
  · have hitems := Value.ofItems_eq_ok_iff.1 (mapError_eq_ok_iff.1 h)
    obtain ⟨k, -, hk⟩ := exists_mem_of_forall₂ hitems hv
    exact ⟨k, hk⟩
  · cases h

/-- A filter is read from members, whether these were named or listed. -/
theorem LeafJson.exists_members_of_ofJson {α : Type} [LeafJson α] {j : Json} {a : α}
    (h : ofJson j = .ok a) :
    ∃ members vs, readArguments members = .ok vs ∧ ofMembers? vs members = some a := by
  unfold ofJson at h
  split at h
  · next members =>
    obtain ⟨vs, hvs, ha⟩ := bind_eq_ok_iff.1 h
    exact ⟨members, vs, hvs, DecodeError.orShape_eq_ok_iff.1 ha⟩
  · next items =>
    obtain ⟨_, -, h⟩ := bind_eq_ok_iff.1 h
    obtain ⟨vs, hvs, ha⟩ := bind_eq_ok_iff.1 h
    obtain ⟨-, ha⟩ := Option.ite_none_left_eq_some.1 (DecodeError.orShape_eq_ok_iff.1 ha)
    exact ⟨leafFields.zip items, vs, hvs, ha⟩
  · cases h

namespace Draft

variable {f : Draft}

/-- A draft that can be written and is then read back. -/
def Storable (f : Draft) : Prop := ∀ v ∈ f.arguments, v.Storable

/-- A filter can be written when its arguments can. -/
theorem Storable.exists_toMembers (h : f.Storable) :
    ∃ members, LeafJson.toMembers f = .ok members := by
  obtain ⟨items, hitems⟩ := exists_forall₂_iff.2 fun v hv => (h v hv).writable
  exact ⟨_, toMembers_eq_ok_iff.2 ⟨items, hitems, rfl⟩⟩

/-- The filter that is read has the arguments that were read for it. -/
theorem arguments_of_ofMembers? {vs : List Value} {members : List (String × Json)}
    (h : LeafJson.ofMembers? vs members = some f) : f.arguments = vs := by
  simp only [LeafJson.ofMembers?, ofMembers?, Option.bind_eq_bind, Option.bind_eq_some_iff] at h
  obtain ⟨id, -, path, -, operation, -, invert, -, hf⟩ := h
  obtain rfl := Option.some.inj hf
  rfl

/-- Whatever filter is read can be kept. -/
theorem storable_of_ofJson {j : Json} (h : LeafJson.ofJson j = .ok f) : f.Storable := by
  obtain ⟨members, vs, hvs, hf⟩ := LeafJson.exists_members_of_ofJson h
  obtain rfl := arguments_of_ofMembers? hf
  intro v hv
  obtain ⟨k, hk⟩ := exists_ofJson_of_readArguments hvs hv
  exact Value.storable_of_ofJson hk

end Draft

/-! ## Trees -/

namespace Rule

variable {α : Type} [LeafJson α] {place : Json.Place} {j : Json} {r : Rule α}

/-- A rule can be written when its filters can. -/
theorem exists_toJson (h : ∀ a ∈ r.leaves, ∃ members, LeafJson.toMembers a = .ok members) :
    ∃ j, r.toJson = .ok j := by
  induction r with
  | leaf a =>
    obtain ⟨members, hmembers⟩ := h a (mem_leaves_leaf.2 rfl)
    exact ⟨_, leaf_toJson_eq_ok_iff.2 ⟨members, hmembers, rfl⟩⟩
  | group id op invert conditions ih =>
    have hconditions : ∀ c ∈ conditions, ∃ j, c.toJson = .ok j := fun c hc =>
      ih c hc fun a ha => h a (mem_leaves_group.2 ⟨c, hc, ha⟩)
    obtain ⟨items, hitems⟩ := exists_forall₂_iff.2 hconditions
    exact ⟨_, group_toJson_eq_ok_iff.2 ⟨items, hitems, rfl⟩⟩

/-- A list of rules is read when each of them is. -/
theorem ofJsonList_eq_ok_iff {js : List Json} {rs : List (Rule α)} :
    ofJsonList js = .ok rs ↔ List.Forall₂ (fun j r => ofJsonAt .inner j = .ok r) js rs := by
  have hmapM : (ofJsonList js : Except DecodeError (List (Rule α))) =
      js.mapM (ofJsonAt .inner) := by
    induction js with
    | nil => rfl
    | cons j rest ih => rw [ofJsonList, ih, List.mapM_cons]
  rw [hmapM, mapM_eq_ok_iff]

omit [LeafJson α] in
/-- Parts that are read make a group of the conditions given with them. -/
theorem exists_group_of_ofParts {members : List (String × Json)} {conditions : List (Rule α)}
    (h : ofParts members conditions = .ok r) :
    ∃ id op invert, r = group id op invert conditions := by
  obtain ⟨⟨id, op, invert⟩, -, rfl⟩ := map_eq_ok_iff.1 h
  exact ⟨id, op, invert, rfl⟩

/-- The conditions of a group were read from an array among its members. -/
theorem exists_items_of_conditionsIn {members : List (String × Json)} {conditions : List (Rule α)}
    (h : conditionsIn members = .ok conditions) :
    ∃ items, .arr items ∈ members.map Prod.snd ∧ ofJsonList items = .ok conditions := by
  induction members with
  | nil => cases h
  | cons m rest ih =>
    obtain ⟨k, j⟩ := m
    unfold conditionsIn at h
    split at h
    · split at h
      · next items => exact ⟨items, .head _, h⟩
      · cases h
    · obtain ⟨items, hitems, hread⟩ := ih h
      exact ⟨items, .tail _ hitems, hread⟩

/-- The rule is a group with conditions that were read from an array among these parts. -/
def GroupFrom (parts : List Json) (r : Rule α) : Prop :=
  ∃ items id op invert conditions, .arr items ∈ parts ∧
    ofJsonList items = .ok conditions ∧ r = group id op invert conditions

/-- A group may also be written as an array of its parts. -/
theorem groupFrom_of_ofItems {items : List Json} (h : ofItems items = .ok r) :
    GroupFrom items r := by
  unfold ofItems at h
  split at h
  · next id op conditions rest =>
    obtain ⟨_, -, h⟩ := bind_eq_ok_iff.1 h
    obtain ⟨rs, hrs, h⟩ := bind_eq_ok_iff.1 h
    have hgroup : ∃ id op invert, r = group id op invert rs := by
      split at h
      · exact exists_group_of_ofParts h
      · exact exists_group_of_ofParts h
      · cases h
    obtain ⟨id, op, invert, rfl⟩ := hgroup
    exact ⟨conditions, id, op, invert, rs, by simp, hrs, rfl⟩
  · cases h

/-- A rule that was read is a filter that was read or a group with conditions that were. -/
theorem leaf_or_groupFrom_of_ofJsonAt (h : ofJsonAt place j = .ok r) :
    (∃ k a, LeafJson.ofJson k = .ok a ∧ r = leaf a) ∨ GroupFrom j.parts r := by
  unfold ofJsonAt at h
  split at h
  · next members =>
    split at h
    · obtain ⟨a, ha, rfl⟩ := map_eq_ok_iff.1 h
      exact .inl ⟨_, a, ha, rfl⟩
    · obtain ⟨conditions, hconditions, h⟩ := bind_eq_ok_iff.1 h
      obtain ⟨items, hitems, hread⟩ := exists_items_of_conditionsIn hconditions
      obtain ⟨id, op, invert, rfl⟩ := exists_group_of_ofParts h
      exact .inr ⟨items, id, op, invert, conditions, hitems, hread, rfl⟩
    · cases h
  · next type items =>
    split at h
    · obtain ⟨a, ha, rfl⟩ := map_eq_ok_iff.1 h
      exact .inl ⟨_, a, ha, rfl⟩
    · obtain ⟨items', id, op, invert, conditions, hitems, hread⟩ := groupFrom_of_ofItems h
      exact .inr ⟨items', id, op, invert, conditions, .tail _ hitems, hread⟩
    · cases h
  · cases h

/-- What holds of every filter that is read holds of all filters of a rule that is read. -/
theorem forall_leaves_of_ofJsonAt {P : α → Prop}
    (hP : ∀ k a, LeafJson.ofJson k = .ok a → P a) (h : ofJsonAt place j = .ok r) :
    ∀ a ∈ r.leaves, P a := by
  -- the conditions are parts of a part, so the induction also carries the statement for the parts
  suffices hall : (∀ place (r : Rule α), ofJsonAt place j = .ok r → ∀ a ∈ r.leaves, P a) ∧
      ∀ k ∈ j.parts, ∀ place (r : Rule α), ofJsonAt place k = .ok r → ∀ a ∈ r.leaves, P a from
    hall.1 place r h
  clear h
  induction j using Json.induct_parts with
  | parts j ih =>
    refine ⟨fun place r h a ha => ?_, fun k hk => (ih k hk).1⟩
    rcases leaf_or_groupFrom_of_ofJsonAt h with ⟨k, b, hb, rfl⟩ | hgroup
    · obtain rfl := mem_leaves_leaf.1 ha
      exact hP k a hb
    · obtain ⟨items, id, op, invert, conditions, hitems, hread, rfl⟩ := hgroup
      obtain ⟨c, hc, hac⟩ := mem_leaves_group.1 ha
      obtain ⟨k, hk, hkc⟩ := exists_mem_of_forall₂ (ofJsonList_eq_ok_iff.1 hread) hc
      exact (ih _ hitems).2 k hk .inner c hkc a hac

end Rule

end RecordRules
