import RecordRules.Proofs.Document
import RecordRules.Proofs.Json.Reading

/-!
# Documents as texts

The JSON of a document is canonical, so its text is read as this JSON unless it is too deep
(`Document.ofText_of_text`).
-/

namespace RecordRules

open Json (Canonical)

/-- An array is canonical when what its items were written from makes them so. -/
theorem Json.Canonical.of_forall₂ {α : Type} {R : α → Json → Prop} {as : List α}
    {items : List Json} (h : List.Forall₂ R as items) (hR : ∀ a ∈ as, ∀ j, R a j → Canonical j) :
    Canonical (.arr items) := by
  refine .arr fun j hj => ?_
  obtain ⟨a, ha, haj⟩ := exists_mem_of_forall₂ h hj
  exact hR a ha j haj

variable {j : Json}

/-! ## Values -/

namespace Value

variable {v : Value}

/-- A tagged value has two members, with their keys in order. -/
theorem canonical_tagged (tag payload : String) : Canonical (tagged tag payload) :=
  .obj (Entries.ascending_iff.2 (by decide : ["__type", "value"].Pairwise (· < ·)))
    (by simp [Canonical.str])

/-- What is written of a value is canonical, by induction on the value; a record lists its fields in
the order of their names already. -/
theorem canonical_of_toJson (h : v.toJson = .ok j) : j.Canonical := by
  induction v generalizing j with
  | null =>
    obtain rfl := Except.ok.inj h
    exact .null
  | bool b =>
    obtain rfl := Except.ok.inj h
    exact .bool b
  | int i =>
    obtain rfl := Except.ok.inj h
    exact .int i.le_toInt (i.toInt_lt.trans (by decide))
  | text s =>
    obtain rfl := Except.ok.inj h
    exact .str s
  | decimal | date =>
    obtain rfl := Except.ok.inj h
    exact canonical_tagged _ _
  | dateTime t =>
    obtain ⟨s, -, rfl⟩ := dateTime_toJson_eq_ok_iff.1 h
    exact canonical_tagged _ s
  | list vs ih =>
    obtain ⟨js, hjs, rfl⟩ := list_toJson_eq_ok_iff.1 h
    exact .of_forall₂ hjs fun v hmem j hvj => ih v hmem hvj
  | record fields ih =>
    obtain ⟨members, hmembers, rfl⟩ := record_toJson_eq_ok_iff.1 h
    refine .obj (fields.ascending_toList.of_agree hmembers) fun y hy => ?_
    obtain ⟨x, hmem, -, hxy⟩ := exists_mem_of_forall₂ hmembers hy
    exact ih x hmem hxy

end Value

/-! ## Rules -/

/-- Positions in a path are integers of 64 bits, names are texts. -/
theorem Path.canonical_toJson (p : Path) : Canonical p.toJson := by
  refine .arr (List.forall_mem_map.2 fun s _ => ?_)
  cases s with
  | field name => exact .str name
  | index i =>
    have hi := i.toNat_lt
    exact .int (by omega) (by omega)

/-- A sort rule is written with few members, all in the order of their keys. -/
theorem SortRule.canonical_toJson (r : SortRule) : Canonical r.toJson := by
  refine .arr (List.forall_mem_map.2 fun i hi => ?_)
  refine .obj (Entries.ascending_iff.2 (by decide :
    ["direction", "operationName", "path"].Pairwise (· < ·))) ?_
  simp [Canonical.str, i.path.canonical_toJson]

/-- The members of a filter ascend also where some are left out, and so does the mark of filters
behind them. -/
theorem Draft.canonical_members {f : Draft} {members : List (String × Json)}
    (h : LeafJson.toMembers f = .ok members) :
    Canonical (.obj (members ++ [(Rule.typeKey, .str Rule.leafType)])) := by
  obtain ⟨items, hitems, rfl⟩ := toMembers_eq_ok_iff.1 h
  have harguments : Canonical (.arr items) :=
    .of_forall₂ hitems fun _ _ _ hvj => Value.canonical_of_toJson hvj
  refine .obj ?_ ?_
  · refine Entries.ascending_of_sublist (by decide : (["arguments", "id"] ++ ["invert"] ++
      ["operationName"] ++ ["path"] ++ ["type"]).Pairwise (· < ·)) ?_
    simp only [List.map_append]
    exact ((((List.Sublist.refl _).append (Entries.sublist_toList_map ..)).append
      (Entries.sublist_toList_map ..)).append (Entries.sublist_toList_map ..)).append
      (List.Sublist.refl _)
  · intro m hm
    simp only [List.mem_append, List.mem_cons, Option.mem_toList, Option.map_eq_some_iff,
      List.not_mem_nil, or_false] at hm
    obtain ((((rfl | rfl) | ⟨b, -, rfl⟩) | ⟨name, -, rfl⟩) | ⟨p, -, rfl⟩) | rfl := hm
    · exact harguments
    · exact .str f.id
    · exact .bool b
    · exact .str name
    · exact p.canonical_toJson
    · exact .str Rule.leafType

/-- What is written of a rule is canonical, by induction on the rule. -/
theorem Rule.canonical_of_toJson {r : Rule Draft} (h : r.toJson = .ok j) : j.Canonical := by
  induction r generalizing j with
  | leaf f =>
    obtain ⟨members, hmembers, rfl⟩ := leaf_toJson_eq_ok_iff.1 h
    exact Draft.canonical_members hmembers
  | group id op invert conditions ih =>
    obtain ⟨items, hitems, rfl⟩ := group_toJson_eq_ok_iff.1 h
    have hconditions : Canonical (.arr items) := .of_forall₂ hitems fun c hc j hcj => ih c hc hcj
    refine .obj ?_ ?_
    · cases invert
      · exact Entries.ascending_iff.2 (by decide :
          ["conditions", "id", "op", "type"].Pairwise (· < ·))
      · exact Entries.ascending_iff.2 (by decide :
          ["conditions", "id", "invert", "op", "type"].Pairwise (· < ·))
    · cases invert <;> simp [groupMembers, hconditions, Canonical.str, Canonical.bool]

/-! ## Documents -/

namespace Document

variable {d : Document}

/-- Either body is canonical when its rule is. -/
theorem canonical_of_body_toJson {b : Body} (h : b.toJson = .ok j) : j.Canonical := by
  cases b with
  | filter rule => exact Rule.canonical_of_toJson (body_toJson_filter_eq_ok_iff.1 h)
  | sort rule =>
    obtain rfl := Except.ok.inj h
    exact rule.canonical_toJson

/-- A document is canonical, as its version fits into 32 bits. -/
theorem canonical_of_toJson (h : d.toJson = .ok j) : j.Canonical := by
  obtain ⟨rule, hrule, rfl⟩ := toJson_eq_ok_iff.1 h
  refine .obj (Entries.ascending_iff.2 (by decide :
    ["kind", "rule", "version"].Pairwise (· < ·))) ?_
  have hversion : Canonical (.ofNat d.version.toNat) := by
    have hroom := d.version.toNat_lt
    exact .int (by omega) (by omega)
  simp [members, canonical_of_body_toJson hrule, hversion, Canonical.str]

/-- The text of a document is read as its JSON, unless that is too deep. -/
theorem ofText_of_text {s : String} (h : d.text = .ok s) :
    ∃ j, d.toJson = .ok j ∧
      ofText s = if j.depth ≤ Json.maxOpen then ofJson j else .error .json := by
  obtain ⟨j, hj, rfl⟩ := map_eq_ok_iff.1 h
  refine ⟨j, hj, ?_⟩
  rw [ofText, Json.parse?_compact (canonical_of_toJson hj)]
  by_cases hdepth : j.depth ≤ Json.maxOpen
  · rw [if_pos hdepth, if_pos hdepth]
  · rw [if_neg hdepth, if_neg hdepth]

end Document

end RecordRules
