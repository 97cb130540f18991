import RecordRules.Proofs.Document
import RecordRules.Proofs.Rule.Decoding

/-!
# Documents that were read

A document that was read is read back from what is written for it, whatever it was read from
(`Document.ofJson_stable`).
-/

namespace RecordRules

namespace Document

variable {d : Document} {j : Json}

/-- A document is read from its rule, as its kind says. -/
theorem readFilter_or_readSort_of_ofJson (h : ofJson j = .ok d) :
    ∃ k, readFilter k = .ok d ∨ readSort k = .ok d := by
  obtain ⟨found, -, h⟩ := bind_eq_ok_iff.1 h
  split at h
  · cases h
  · obtain ⟨kind, -, h⟩ := bind_eq_ok_iff.1 h
    obtain ⟨rule, -, h⟩ := bind_eq_ok_iff.1 h
    split at h
    · exact ⟨rule, .inl h⟩
    · exact ⟨rule, .inr h⟩
    · cases h

/-- A document that can be written and is then read back as it is. -/
structure Storable (d : Document) : Prop where
  version : d.version = currentVersion
  tagFree : ∀ v ∈ d.arguments, v.tagFree = true
  zerosUnsigned : ∀ v ∈ d.arguments, v.zerosUnsigned = true
  nodup : d.ids.Nodup
  writable : ∃ j, d.toJson = .ok j

/-- A filter document can be kept when its filters can and its ids are distinct. -/
theorem storable_filter {rule : Rule Draft} (h : ∀ f ∈ rule.leaves, f.Storable)
    (hid : rule.ids.Nodup) : (filter rule).Storable where
  version := rfl
  tagFree v hv := by
    obtain ⟨f, hf, hfv⟩ := List.mem_flatMap.1 hv
    exact (h f hf v hfv).tagFree
  zerosUnsigned v hv := by
    obtain ⟨f, hf, hfv⟩ := List.mem_flatMap.1 hv
    exact (h f hf v hfv).zerosUnsigned
  nodup := hid
  writable := by
    obtain ⟨body, hbody⟩ := Rule.exists_toJson fun f hf => (h f hf).exists_toMembers
    exact ⟨_, filter_toJson_eq_ok_iff.2 ⟨body, hbody, rfl⟩⟩

/-- A sort document can always be kept. -/
theorem storable_sort (rule : SortRule) : (sort rule).Storable where
  version := rfl
  tagFree := nofun
  zerosUnsigned := nofun
  nodup := .nil
  writable := ⟨_, rfl⟩

/-- Whatever document is read can be kept, by the checks made in reading it. -/
theorem storable_of_ofJson (h : ofJson j = .ok d) : d.Storable := by
  obtain ⟨k, h | h⟩ := readFilter_or_readSort_of_ofJson h
  · obtain ⟨rule, hrule, hid, rfl⟩ := readFilter_eq_ok_iff.1 h
    have hleaves : ∀ f ∈ rule.leaves, f.Storable :=
      Rule.forall_leaves_of_ofJsonAt (fun _ _ => Draft.storable_of_ofJson) hrule
    exact storable_filter hleaves hid
  · unfold readSort at h
    split at h
    · next rule hrule =>
      obtain rfl := Except.ok.inj h
      exact storable_sort rule
    · cases h

/-- A document that was read from any JSON is written, and read back from what is written.  Its
ids are distinct, and no record in its arguments holds a text under the key of tags. -/
theorem ofJson_stable (h : ofJson j = .ok d) :
    (∃ j', d.toJson = .ok j' ∧ ofJson j' = .ok d) ∧
      (∀ v ∈ d.arguments, v.tagFree = true) ∧ d.ids.Nodup := by
  have hd := storable_of_ofJson h
  obtain ⟨j', hj'⟩ := hd.writable
  have hread := ofJson_of_nodup hd.version hd.tagFree hd.nodup hj'
  rw [asRead_of_zerosUnsigned hd.zerosUnsigned] at hread
  exact ⟨⟨j', hj', hread⟩, hd.tagFree, hd.nodup⟩

/-- Members that no document writes, a part that is `null`, a number, a tagged value that holds
more than its text, and a `__type` that is no text. -/
theorem ofJson_stable_loose :
    let j : Json := .obj [("kind", .str "filter"), ("note", .null), ("rule", .obj [
      ("conditions", .arr [.obj [
        ("arguments", .arr [.int (-5), .obj [("__type", .int 7)],
          .obj [("__type", .str "Decimal"), ("note", .null), ("value", .str "1.50")]]),
        ("id", .str "a"), ("invert", .null), ("path", .arr [.str "orders", .int 0]),
        ("type", .str "Filter")]]),
      ("id", .str "g"), ("op", .str "or"), ("type", .str "FilterGroup")]), ("version", .int 1)]
    let d := filter (.group "g" .or false [.leaf ⟨"a", some [.field "orders", .index 0], none,
      [.int (-5), .recordOf [("__type", .int 7)],
        .decimal ⟨false, 150, 2, by decide, by decide⟩], none⟩])
    ofJson j = .ok d ∧ (∃ j', d.toJson = .ok j' ∧ ofJson j' = .ok d) ∧
      (∀ v ∈ d.arguments, v.tagFree = true) ∧ d.ids.Nodup := by
  intro j d
  have hread : ofJson j = .ok d := rfl
  exact ⟨hread, ofJson_stable hread⟩

end Document

end RecordRules
