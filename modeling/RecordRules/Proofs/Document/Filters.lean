import RecordRules.Dataset
import RecordRules.Proofs.Document
import RecordRules.Proofs.Normalization

/-!
# Finished rules that are kept

A normalized rule is kept as drafts.  Read again, these normalize to the rule that was kept
(`normalize_ofJson_ofFilters`), so it accepts the same records as before.
-/

namespace RecordRules

/-! ## Filters that are read back -/

namespace Filter

variable {f : Filter}

/-- The filter that is read back: the zeros in its arguments have lost their signs. -/
def asRead (f : Filter) : Filter := { f with arguments := f.arguments.map Value.asRead }

/-- The filter that is read back equals the one written. -/
theorem asRead_beq (f : Filter) : (f.asRead == f) = true := by
  change instBEqFilter.beq _ _ = true
  simp [instBEqFilter.beq, asRead, Value.map_asRead_beq]

/-- A filter without negative zeros is read back as the very same. -/
theorem asRead_of_zerosUnsigned (h : ∀ v ∈ f.arguments, v.zerosUnsigned = true) :
    f.asRead = f := by
  rw [asRead, Value.map_asRead_of_zerosUnsigned h]

end Filter

/-! ## Rules that are kept -/

namespace Resolver

variable {r : Resolver} {d : Rule Draft} {s : Rule Filter}

/-- Normalizing adds no id. -/
theorem ids_sublist_of_normalize (h : r.normalize d = .ok s) : s.toDraft.ids.Sublist d.ids := by
  have hid : ∀ f : Draft, Leaf.id f.settle = Leaf.id f := fun _ => rfl
  rw [toDraft_of_normalize h, Rule.ids_map hid]
  exact Rule.ids_keep_sublist (normalize_eq_ok_iff.1 h).1

/-- The drafts of a normalized rule are drafts of the rule that it was made from, with a flag. -/
theorem exists_mem_leaves_of_normalize (h : r.normalize d = .ok s) {f : Draft}
    (hf : f ∈ s.toDraft.leaves) : ∃ g ∈ d.leaves, g.settle = f := by
  rw [Rule.toDraft, Rule.leaves_map, leaves_of_normalize h] at hf
  obtain ⟨g, hg, hgf⟩ := List.mem_map.1 hf
  exact ⟨g, List.mem_of_mem_filter hg, hgf⟩

/-- Normalization brings no arguments of its own. -/
theorem arguments_subset_of_normalize (h : r.normalize d = .ok s) :
    (Document.ofFilters s).arguments ⊆ (Document.filter d).arguments := by
  intro v hv
  obtain ⟨f, hf, hfv⟩ := List.mem_flatMap.1 hv
  obtain ⟨g, hg, rfl⟩ := exists_mem_leaves_of_normalize h hf
  exact List.mem_flatMap.2 ⟨g, hg, hfv⟩

/-- Parameters admit arguments whatever the signs of their zeros are. -/
theorem Resolves.asRead {f : Filter} (h : r.Resolves f) : r.Resolves f.asRead := by
  obtain ⟨op, hop, harguments⟩ := h
  refine ⟨op, hop, checkArguments_eq_ok_iff.2 ?_⟩
  refine (checkArguments_eq_ok_iff.1 harguments).imp_right fun hadmits => ?_
  exact List.forall₂_map_right_iff.2 <| hadmits.imp fun t v hv =>
    Ty.admits_of_beq (BEq.symm v.asRead_beq) hv

/-- The drafts of a normalized rule, read back, normalize to this rule read back. -/
theorem normalize_map_asRead (h : r.normalize d = .ok s) :
    r.normalize (s.toDraft.map Draft.asRead) = .ok (s.map Filter.asRead) := by
  -- reading a filter back and taking its draft may be done in either order
  have hdraft : s.toDraft.map Draft.asRead = (s.map Filter.asRead).toDraft := by
    rw [Rule.toDraft, Rule.toDraft, Rule.map_map, Rule.map_map]
    rfl
  rw [hdraft]
  refine normalize_toDraft (fun f hf => ?_) fun n hn hgroup => ?_
  · rw [Rule.leaves_map] at hf
    obtain ⟨g, hg, rfl⟩ := List.mem_map.1 hf
    exact (resolves_of_normalize h hg).asRead
  · rw [Rule.nodes_map] at hn
    obtain ⟨m, hm, rfl⟩ := List.mem_map.1 hn
    cases m with
    | leaf f => cases hgroup
    | group id op invert conditions =>
      -- a group that normalization keeps has conditions, and reading back takes none away
      have hne : conditions ≠ [] := conditions_ne_nil_of_normalize h hm rfl
      rw [Rule.map, Rule.conditions_group, Rule.mapList_eq]
      exact mt List.map_eq_nil_iff.1 hne

/-- A document keeps a normalized rule: what is read from it normalizes to an equal rule.  If no
zero in the arguments has a sign, it normalizes to the very rule, and so selects the same
records. -/
theorem normalize_ofJson_ofFilters {j : Json}
    (htags : ∀ v ∈ (Document.filter d).arguments, v.tagFree = true)
    (hid : (Document.filter d).ids.Nodup) (hs : r.normalize d = .ok s)
    (hj : (Document.ofFilters s).toJson = .ok j) :
    ∃ d' s', Document.ofJson j = .ok (.filter d') ∧ r.normalize d' = .ok s' ∧ (s' == s) = true ∧
      ((∀ v ∈ (Document.filter d).arguments, v.zerosUnsigned = true) → s' = s ∧
        ∀ config records,
          (r.normalize d').map (fun rule => r.filterData (some rule) config records) =
            (r.normalize d).map fun rule => r.filterData (some rule) config records) := by
  have hread : Document.ofJson j = .ok (.filter (s.toDraft.map Draft.asRead)) := by
    refine Document.ofJson_of_nodup rfl (fun v hv => ?_) ?_ hj
    · exact htags v (arguments_subset_of_normalize hs hv)
    · exact (ids_sublist_of_normalize hs).nodup hid
  have hback := normalize_map_asRead hs
  refine ⟨_, _, hread, hback, Rule.map_beq_self Filter.asRead_beq s, fun hzeros => ?_⟩
  -- without negative zeros there is nothing to lose
  have hsame : s.map Filter.asRead = s := by
    refine Rule.map_eq_self_of_leaves fun f hf => Filter.asRead_of_zerosUnsigned fun v hv => ?_
    refine hzeros v (arguments_subset_of_normalize hs (List.mem_flatMap.2 ⟨f.toDraft, ?_, hv⟩))
    rw [Rule.toDraft, Rule.leaves_map]
    exact List.mem_map_of_mem hf
  rw [hback, hs, hsame]
  exact ⟨rfl, fun _ _ => rfl⟩

/-- A group of an unfinished draft is dropped before the rule is kept; the other group keeps its
decimal, and its draft a flag that it did not have. -/
theorem normalize_ofJson_ofFilters_priced : ∃ (r : Resolver) (d : Rule Draft) (s : Rule Filter)
    (j : Json) (d' : Rule Draft),
    r = ⟨(Registry.empty .filter).registerAll Builtins.filters, .record [("price", .decimal)],
      Ty.accepts⟩ ∧
    d = .group "g" .or true [.group "h" .and false [.leaf (.empty "a")],
      .leaf ⟨"b", some [.field "price"], some "greater than", [.decimal ⟨false, 150, 2, by decide,
        by decide⟩], none⟩] ∧
    s.leafCount = 1 ∧ r.normalize d = .ok s ∧ (Document.ofFilters s).toJson = .ok j ∧
    Document.ofJson j = .ok (.filter d') ∧ r.normalize d' = .ok s := by
  let r : Resolver := ⟨(Registry.empty .filter).registerAll Builtins.filters,
    .record [("price", .decimal)], Ty.accepts⟩
  let price : Value := .decimal ⟨false, 150, 2, by decide, by decide⟩
  let kept : Filter := ⟨"b", [.field "price"], "greater than", [price], false⟩
  have haccepts := Ty.accepts_self .decimal
  have hkept : r.checkDraft ⟨"b", some [.field "price"], some "greater than", [price], none⟩ =
      .ok kept :=
    checkDraft_eq_ok_iff.2 ⟨rfl, _, resolve_eq_ok_iff.2
      ⟨Builtins.greaterThan, .decimal, rfl, rfl, rfl, if_pos haccepts⟩, rfl⟩
  have hdropped : r.checkDraft (.empty "a") = .error (.missingOperation "a") := rfl
  have hs : r.normalize (.group "g" .or true [.group "h" .and false [.leaf (.empty "a")],
      .leaf ⟨"b", some [.field "price"], some "greater than", [price], none⟩]) =
      .ok (.group "g" .or true [.leaf kept]) := by
    simp only [normalize, Rule.prune, Rule.pruneList, hkept, hdropped]
    rfl
  obtain ⟨d', s', hread, hback, -, hsame⟩ :=
    normalize_ofJson_ofFilters (by decide) (by decide) hs rfl
  obtain ⟨rfl, -⟩ := hsame (by decide)
  exact ⟨r, _, _, _, d', rfl, rfl, rfl, hs, rfl, hread, hback⟩

end Resolver

end RecordRules
