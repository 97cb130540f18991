import RecordRules.Document
import RecordRules.Proofs.Rule.Equality
import RecordRules.Proofs.Rule.Json

/-!
# Documents that are read back

A document is read back from its JSON exactly if its version is the current one, no two nodes of its
rule share an id, and no record in its arguments holds a text under the key of tags.  The zeros in
the arguments lose their signs (`Document.ofJson_of_nodup`).
-/

namespace RecordRules

/-! ## Ids that occur twice -/

namespace Rule

variable {α : Type} {seen ids : List String}

/-- Nothing is repeated when the ids are distinct and none of them was seen before. -/
theorem firstRepeated?_eq_none_iff :
    firstRepeated? seen ids = none ↔ ids.Nodup ∧ ∀ id ∈ ids, id ∉ seen := by
  induction ids generalizing seen with
  | nil => simp [firstRepeated?]
  | cons id rest ih =>
    rw [firstRepeated?, List.nodup_cons, List.forall_mem_cons]
    split
    · next hseen => simp [hseen]
    · next hseen =>
      rw [ih]
      grind

/-- The id that is reported occurs twice at least, what was seen before included. -/
theorem two_le_count_of_firstRepeated? {id : String} (h : firstRepeated? seen ids = some id) :
    2 ≤ seen.count id + ids.count id := by
  induction ids generalizing seen with
  | nil => cases h
  | cons first rest ih =>
    rw [firstRepeated?] at h
    split at h
    · next hseen =>
      obtain rfl := Option.some.inj h
      have hbefore := List.count_pos_iff.2 hseen
      rw [List.count_cons_self]
      omega
    · have hrest := ih h
      rw [List.count_cons] at hrest ⊢
      omega

variable [Leaf α]

/-- The order from the right lists the ids of several rules, provided it lists those of each. -/
theorem idsFromRightOf_perm {rs : List (Rule α)} (h : ∀ r ∈ rs, r.idsFromRight.Perm r.ids) :
    (idsFromRightOf rs).Perm (idsOf rs) := by
  induction rs with
  | nil => exact .refl _
  | cons r rest ih =>
    obtain ⟨hr, hrest⟩ := List.forall_mem_cons.1 h
    rw [idsFromRightOf, idsOf]
    exact List.perm_append_comm.trans (hr.append (ih hrest))

/-- The order from the right lists all ids of a rule. -/
theorem idsFromRight_perm (r : Rule α) : r.idsFromRight.Perm r.ids := by
  induction r with
  | leaf a => exact .refl _
  | group id op invert conditions ih => exact (idsFromRightOf_perm ih).cons id

/-- No repetition is found exactly if the ids are distinct. -/
theorem repeatedId?_eq_none_iff {r : Rule α} : r.repeatedId? = none ↔ r.ids.Nodup := by
  rw [repeatedId?, firstRepeated?_eq_none_iff, r.idsFromRight_perm.nodup_iff]
  simp

/-- The id that is reported occurs twice at least. -/
theorem two_le_count_of_repeatedId? {r : Rule α} {id : String} (h : r.repeatedId? = some id) :
    2 ≤ r.ids.count id := by
  simpa [r.idsFromRight_perm.count_eq id] using two_le_count_of_firstRepeated? h

end Rule

/-! ## Sort rules -/

/-- Every item of a sort rule is read back. -/
theorem SortItem.ofJson?_toJson (i : SortItem) : SortItem.ofJson? i.toJson = some i := by
  have hpath : Json.required? "path" Path.ofJson? [("direction", .str i.direction.name),
      ("operationName", .str i.operation), ("path", i.path.toJson)] = some i.path :=
    i.path.ofJson?_toJson
  have hdirection : Direction.ofJson? (.str i.direction.name) = some i.direction := by
    cases i.direction <;> rfl
  simp only [SortItem.ofJson?, SortItem.toJson, Json.members?, Option.bind_eq_bind,
    Option.bind_some, hpath]
  simp [Json.required?, Json.optional?, Entries.get?_cons, Json.asStr?, hdirection]

/-- Every sort rule is read back. -/
theorem SortRule.ofJson?_toJson (r : SortRule) : SortRule.ofJson? r.toJson = some r :=
  Json.asListOf?_map fun i _ => i.ofJson?_toJson

namespace Document

variable {d d' : Document} {j : Json}

/-! ## The parts of a document -/

/-- The ids of all nodes of the rule. -/
def Body.ids : Body → List String
  | filter rule => rule.ids
  | sort _ => []

/-- The arguments of all filters. -/
def Body.arguments : Body → List Value
  | filter rule => rule.leaves.flatMap Draft.arguments
  | sort _ => []

/-- The ids of all nodes of the rule. -/
def ids (d : Document) : List String := d.body.ids

/-- The arguments of all filters. -/
def arguments (d : Document) : List Value := d.body.arguments

/-- A document of the current version is one that a rule gets when it is kept. -/
theorem eq_filter_or_eq_sort (h : d.version = currentVersion) :
    (∃ rule, d = filter rule) ∨ ∃ rule, d = sort rule := by
  obtain ⟨version, rule | rule⟩ := d
  · obtain rfl : version = currentVersion := h
    exact .inl ⟨rule, rfl⟩
  · obtain rfl : version = currentVersion := h
    exact .inr ⟨rule, rfl⟩

/-! ## Reading what was written -/

/-- A filter document is read when its rule is and the ids are distinct. -/
theorem readFilter_eq_ok_iff : readFilter j = .ok d ↔
    ∃ rule, Rule.ofJson j = .ok rule ∧ rule.ids.Nodup ∧ filter rule = d := by
  rw [readFilter]
  cases (Rule.ofJson j : Except DecodeError (Rule Draft)) with
  | error cause => simp
  | ok rule =>
    cases hrepeated : rule.repeatedId? with
    | some id =>
      have hid : ¬ rule.ids.Nodup := fun hid => by
        simp [Rule.repeatedId?_eq_none_iff.2 hid] at hrepeated
      simp [hrepeated, hid]
    | none => simp [hrepeated, Rule.repeatedId?_eq_none_iff.1 hrepeated]

/-- A rule that repeats an id is refused, with an id that it repeats. -/
theorem exists_readFilter_eq_duplicateId {rule : Rule Draft} (h : Rule.ofJson j = .ok rule)
    (hid : ¬ rule.ids.Nodup) :
    ∃ id, readFilter j = .error (.duplicateId id) ∧ 2 ≤ rule.ids.count id := by
  obtain ⟨id, hrepeated⟩ := Option.ne_none_iff_exists'.1 (mt Rule.repeatedId?_eq_none_iff.1 hid)
  rw [readFilter, h]
  exact ⟨id, by simp only [hrepeated], Rule.two_le_count_of_repeatedId? hrepeated⟩

/-- A document is written when its body is, whatever its version. -/
theorem toJson_eq_ok_iff :
    d.toJson = .ok j ↔ ∃ rule, d.body.toJson = .ok rule ∧ .obj (d.members rule) = j := by
  simp only [toJson, bind_eq_ok_iff, pure_eq_ok_iff]

/-- The body of a filter document is written when the rule is. -/
theorem body_toJson_filter_eq_ok_iff {rule : Rule Draft} :
    (Body.filter rule).toJson = .ok j ↔ rule.toJson = .ok j :=
  mapError_eq_ok_iff

/-- A filter document is written when its rule is. -/
theorem filter_toJson_eq_ok_iff {rule : Rule Draft} : (filter rule).toJson = .ok j ↔
    ∃ body, rule.toJson = .ok body ∧ .obj ((filter rule).members body) = j := by
  rw [toJson_eq_ok_iff]
  exact exists_congr fun body => and_congr_left fun _ => body_toJson_filter_eq_ok_iff

/-- The version of a document is read back, since it is a natural number of 32 bits. -/
theorem field_version (d : Document) (rule : Json) :
    field (.obj (d.members rule)) "version" Json.asNat? = .ok d.version.toNat := by
  have hget : (Json.obj (d.members rule)).get? "version" = some (.ofNat d.version.toNat) := rfl
  have hroom : d.version.toNat < UInt64.size := d.version.toNat_lt.trans (by decide)
  rw [field, hget, Option.bind_some, Json.asNat?_ofNat hroom]

/-- A document of another version is not read. -/
theorem ofJson_of_version_ne (hversion : d.version ≠ currentVersion) (h : d.toJson = .ok j) :
    ofJson j = .error (.unsupportedVersion d.version.toNat) := by
  obtain ⟨rule, -, rfl⟩ := toJson_eq_ok_iff.1 h
  have hother : d.version.toNat = 0 ∨ currentVersion.toNat < d.version.toNat := by
    have hne : d.version.toNat ≠ currentVersion.toNat := fun heq =>
      hversion (UInt32.toNat_inj.1 heq)
    have hcurrent : currentVersion.toNat = 1 := rfl
    omega
  rw [ofJson, field_version]
  exact if_pos hother

/-- A document of the current version is read by its kind. -/
theorem ofJson_of_version_eq (hversion : d.version = currentVersion) (rule : Json) :
    ofJson (.obj (d.members rule)) =
      match d.body with
      | .filter _ => readFilter rule
      | .sort _ => readSort rule := by
  obtain ⟨version, body⟩ := d
  obtain rfl : version = currentVersion := hversion
  have hcurrent : ¬ (currentVersion.toNat = 0 ∨ currentVersion.toNat < currentVersion.toNat) := by
    decide
  rw [ofJson, field_version]
  change (if currentVersion.toNat = 0 ∨ currentVersion.toNat < currentVersion.toNat
    then .error (.unsupportedVersion currentVersion.toNat) else _) = _
  rw [if_neg hcurrent]
  cases body <;> rfl

/-- What is read from the JSON of a filter document is its rule with each filter read again. -/
theorem exists_ofJson_eq_readFilter {rule : Rule Draft} (h : (filter rule).toJson = .ok j) :
    ∃ body, ofJson j = readFilter body ∧ Rule.ofJson body = rule.traverse LeafJson.reread := by
  obtain ⟨body, hrule, rfl⟩ := filter_toJson_eq_ok_iff.1 h
  exact ⟨body, ofJson_of_version_eq rfl body, Rule.ofJsonAt_of_toJson hrule .outer⟩

/-- A sort document is read back. -/
theorem ofJson_of_sort {rule : SortRule} (h : (sort rule).toJson = .ok j) :
    ofJson j = .ok (sort rule) := by
  obtain rfl := Except.ok.inj h
  refine (ofJson_of_version_eq rfl _).trans ?_
  change readSort rule.toJson = _
  rw [readSort, rule.ofJson?_toJson]

/-- The document that is read back: the zeros in its arguments have lost their signs. -/
def asRead (d : Document) : Document :=
  match d.body with
  | .filter rule => ⟨d.version, .filter (rule.map Draft.asRead)⟩
  | .sort _ => d

/-- The ids of a rule do not depend on the signs of zeros. -/
theorem ids_map_asRead (rule : Rule Draft) : (rule.map Draft.asRead).ids = rule.ids :=
  Rule.ids_eq_of_beq (fun _ _ h => (Draft.beq_iff.1 h).1)
    (Rule.map_beq_self Draft.asRead_beq rule)

/-- A document without negative zeros is read back as the very same. -/
theorem asRead_of_zerosUnsigned (h : ∀ v ∈ d.arguments, v.zerosUnsigned = true) :
    d.asRead = d := by
  obtain ⟨version, rule | rule⟩ := d
  · have hrule : rule.map Draft.asRead = rule := Rule.map_eq_self_of_leaves fun f hf =>
      Draft.asRead_of_zerosUnsigned fun v hv => h v (List.mem_flatMap.2 ⟨f, hf, hv⟩)
    simp only [asRead, hrule]
  · rfl

/-- The rule of a document is read back if no record in its arguments holds a text under the key of
tags. -/
theorem traverse_reread_of_tagFree {rule : Rule Draft}
    (htags : ∀ v ∈ (filter rule).arguments, v.tagFree = true)
    (h : (filter rule).toJson = .ok j) :
    rule.traverse LeafJson.reread = .ok (rule.map Draft.asRead) := by
  obtain ⟨body, hrule, -⟩ := filter_toJson_eq_ok_iff.1 h
  refine Rule.traverse_eq_map fun f hf => ?_
  obtain ⟨members, hmembers⟩ := Rule.exists_toMembers_of_toJson hrule hf
  exact Draft.reread_of_tagFree (fun v hv => htags v (List.mem_flatMap.2 ⟨f, hf, hv⟩)) hmembers

/-- A document of the current version with distinct ids is read back, but for the signs of zeros, if
no record in its arguments holds a text under the key of tags. -/
theorem ofJson_of_nodup (hversion : d.version = currentVersion)
    (htags : ∀ v ∈ d.arguments, v.tagFree = true) (hid : d.ids.Nodup) (h : d.toJson = .ok j) :
    ofJson j = .ok d.asRead := by
  obtain ⟨rule, rfl⟩ | ⟨rule, rfl⟩ := eq_filter_or_eq_sort hversion
  · obtain ⟨body, hj, hbody⟩ := exists_ofJson_eq_readFilter h
    rw [traverse_reread_of_tagFree htags h] at hbody
    rw [hj, readFilter_eq_ok_iff]
    exact ⟨_, hbody, by rwa [ids_map_asRead], rfl⟩
  · exact ofJson_of_sort h

/-- A document that repeats an id can be written, but not read back. -/
theorem ofJson_of_not_nodup (hversion : d.version = currentVersion)
    (htags : ∀ v ∈ d.arguments, v.tagFree = true) (hid : ¬ d.ids.Nodup) (h : d.toJson = .ok j) :
    ∃ id, ofJson j = .error (.duplicateId id) ∧ 2 ≤ d.ids.count id := by
  obtain ⟨rule, rfl⟩ | ⟨rule, rfl⟩ := eq_filter_or_eq_sort hversion
  · obtain ⟨body, hj, hbody⟩ := exists_ofJson_eq_readFilter h
    rw [traverse_reread_of_tagFree htags h] at hbody
    obtain ⟨id, hread, hcount⟩ :=
      exists_readFilter_eq_duplicateId hbody (by rwa [ids_map_asRead])
    rw [ids_map_asRead] at hcount
    exact ⟨id, hj.trans hread, hcount⟩
  · exact absurd .nil hid

/-! ## Equal documents -/

/-- Documents are equal when their versions are and their bodies are. -/
theorem beq_iff : (d == d') = true ↔ d.version = d'.version ∧ (d.body == d'.body) = true := by
  cases d
  cases d'
  change instBEqDocument.beq _ _ = true ↔ _
  simp [instBEqDocument.beq]

/-- Filter documents of the current version are equal when their rules are. -/
theorem filter_beq_iff {r s : Rule Draft} : (filter r == filter s) = true ↔ (r == s) = true :=
  beq_iff.trans (and_iff_right rfl)

/-- Every document equals itself. -/
theorem beq_refl (d : Document) : (d == d) = true := by
  obtain ⟨version, rule | rule⟩ := d
  · exact beq_iff.2 ⟨rfl, Rule.beq_refl Draft.beq_refl rule⟩
  · exact beq_iff.2 ⟨rfl, beq_self_eq_true rule⟩

/-- The document that is read back equals the one written. -/
theorem asRead_beq (d : Document) : (d.asRead == d) = true := by
  obtain ⟨version, rule | rule⟩ := d
  · exact beq_iff.2 ⟨rfl, Rule.map_beq_self Draft.asRead_beq rule⟩
  · exact beq_refl _

/-- The JSON of a document of the current version is read as an equal document if its ids are
distinct, and otherwise refused for an id that two nodes share; the JSON of any other version is
refused for this version.  What is read is the very document if no zero in it has a sign. -/
theorem toJson_round_trip (htags : ∀ v ∈ d.arguments, v.tagFree = true) (h : d.toJson = .ok j) :
    (d.version = currentVersion → d.ids.Nodup → ∃ d', ofJson j = .ok d' ∧ (d' == d) = true ∧
      ((∀ v ∈ d.arguments, v.zerosUnsigned = true) → d' = d)) ∧
    (d.version = currentVersion → ¬ d.ids.Nodup →
      ∃ id, ofJson j = .error (.duplicateId id) ∧ 2 ≤ d.ids.count id) ∧
    (d.version ≠ currentVersion → ofJson j = .error (.unsupportedVersion d.version.toNat)) := by
  refine ⟨fun hversion hid => ?_, fun hversion hid => ?_, fun hversion => ?_⟩
  · exact ⟨d.asRead, ofJson_of_nodup hversion htags hid h, d.asRead_beq, asRead_of_zerosUnsigned⟩
  · exact ofJson_of_not_nodup hversion htags hid h
  · exact ofJson_of_version_ne hversion h

/-- An unfinished rule with groups and arguments of several kinds, and a group whose conditions
share an id. -/
theorem toJson_round_trip_unfinished :
    let d := filter (.group "g" .or true [
      .leaf ⟨"price", some [.field "orders", .index 0], none,
        [.list [.decimal ⟨true, 150, 2, by decide, by decide⟩],
          .recordOf [(Value.tagKey, .int 7)]], none⟩,
      .group "h" .and false [], .leaf ⟨"name", none, some "is", [.text "Ann"], some true⟩])
    let e := filter (.group "g" .and false [.leaf (.empty "x"), .leaf (.empty "x")])
    (∃ j, d.toJson = .ok j ∧ ofJson j = .ok d) ∧
      (∃ j, e.toJson = .ok j ∧ ∃ id, ofJson j = .error (.duplicateId id) ∧ 2 ≤ e.ids.count id) ∧
      ∃ j, Document.toJson { e with version := 2 } = .ok j ∧
        ofJson j = .error (.unsupportedVersion 2) := by
  intro d e
  obtain ⟨j, hj⟩ : ∃ j, d.toJson = .ok j := ⟨_, rfl⟩
  obtain ⟨d', hd', -, hsame⟩ := (toJson_round_trip (by decide) hj).1 rfl (by decide)
  obtain rfl := hsame (by decide)
  let later : Document := { e with version := 2 }
  obtain ⟨k, hk⟩ : ∃ k, later.toJson = .ok k := ⟨_, rfl⟩
  refine ⟨⟨j, hj, hd'⟩, ⟨_, rfl, (toJson_round_trip ?_ ?_).2.1 rfl ?_⟩, k, hk,
    (toJson_round_trip ?_ hk).2.2 ?_⟩
  · decide
  · rfl
  · decide
  · decide
  · decide

/-! ## Documents that are read as equal ones -/

/-- Only a document of the current version with distinct ids, and without a text under the key of
tags in a record of its arguments, is read back as an equal one. -/
theorem readable_of_ofJson (h : d.toJson = .ok j) (hd' : ofJson j = .ok d')
    (heq : (d' == d) = true) :
    d.version = currentVersion ∧ d.ids.Nodup ∧ ∀ v ∈ d.arguments, v.tagFree = true := by
  have hversion : d.version = currentVersion := by
    by_contra hne
    rw [ofJson_of_version_ne hne h] at hd'
    cases hd'
  refine ⟨hversion, ?_⟩
  obtain ⟨rule, rfl⟩ | ⟨rule, rfl⟩ := eq_filter_or_eq_sort hversion
  · obtain ⟨body, hj, hbody⟩ := exists_ofJson_eq_readFilter h
    rw [hj, readFilter_eq_ok_iff] at hd'
    obtain ⟨rule', hread, hid, rfl⟩ := hd'
    rw [hbody] at hread
    have heq : (rule' == rule) = true := filter_beq_iff.1 heq
    constructor
    · have hids := Rule.ids_eq_of_beq (fun f g hfg => (Draft.beq_iff.1 hfg).1) heq
      rwa [hids] at hid
    · intro v hv
      obtain ⟨f, hf, hvf⟩ := List.mem_flatMap.1 hv
      -- each filter is read as one that equals it, so it was not mistaken for anything else
      have hleaves := forall₂_comp (Rule.forall₂_leaves_of_traverse hread)
        (Rule.forall₂_leaves_of_beq heq)
      obtain ⟨g, hfg, hgf⟩ := List.forall₂_same.1 hleaves f hf
      obtain ⟨body, hrule, -⟩ := filter_toJson_eq_ok_iff.1 h
      obtain ⟨members, hmembers⟩ := Rule.exists_toMembers_of_toJson hrule hf
      exact Draft.tagFree_of_reread hmembers hfg hgf v hvf
  · exact ⟨.nil, nofun⟩

end Document

end RecordRules
