import RecordRules.Discovery.Queue
import RecordRules.Proofs.Ty.Levels

/-!
# The order of discovery

Fields come level by level, and within a level in the order of the positions at which the fields
along their ways are declared (`Ty.IsLevel`).  Those to which no operation applies are left out, and
a greater depth only adds levels at the end (`discoverFields_breadthFirst`).

The queue holds the rest of one level and the beginning of the next one, but the search does not see
where a level ends.  Whatever part of the queue is looked at, the fields below it come behind the
rest in the same order (`FieldQueue.search_append`).  So a queue that holds one level comes to hold
the next one, until the levels are too deep.
-/

namespace RecordRules

namespace Ty

/-! ## Places in a schema -/

/-- A field below a type, with the way to it: the positions at which the fields along the way are
declared, and their names. -/
structure Place where
  positions : List Nat
  names : List String
  fieldType : Ty

/-- Each position is that of a field of the record type to which the positions before it lead, and
each name is the name of this field. -/
inductive Descends : Ty → List Nat → List String → Ty → Prop where
  | root (t : Ty) : Descends t [] [] t
  | field {fields : List (String × Ty)} {i : Nat} {n : String} {t u : Ty} {positions : List Nat}
      {names : List String} : fields[i]? = some (n, t) → Descends t positions names u →
      Descends (record fields) (i :: positions) (n :: names) u

/-- All places so many steps below a type, in the order of the first positions that differ. -/
structure IsLevel (t : Ty) (k : Nat) (places : List Place) : Prop where
  mem : ∀ x, x ∈ places ↔
    x.positions.length = k ∧ t.Descends x.positions x.names x.fieldType
  ordered : places.Pairwise fun x y => List.Lex (· < ·) x.positions y.positions

/-- The place as seen from one step further up. -/
def Place.under (f : (String × Ty) × Nat) (x : Place) : Place :=
  ⟨f.2 :: x.positions, f.1.1 :: x.names, x.fieldType⟩

def placesAt : Nat → Ty → List Place
  | 0, t => [⟨[], [], t⟩]
  | k + 1, t => (t.fields?.getD []).zipIdx.flatMap fun f => (placesAt k f.1.2).map (Place.under f)

variable {t u : Ty} {k : Nat}

/-- The first position is that of a field, from which the others lead on. -/
theorem descends_cons_iff {i : Nat} {positions : List Nat} {names : List String} :
    t.Descends (i :: positions) names u ↔ ∃ f names', (t.fields?.getD [])[i]? = some f ∧
      names = f.1 :: names' ∧ f.2.Descends positions names' u := by
  constructor
  · intro h
    cases h with
    | field hi h => exact ⟨_, _, hi, rfl, h⟩
  · rintro ⟨f, names', hi, rfl, h⟩
    cases t with
    | record fields => exact .field hi h
    | _ => cases hi

/-- There is a name for each position. -/
theorem Descends.length_names {positions : List Nat} {names : List String}
    (h : t.Descends positions names u) : names.length = positions.length := by
  induction h with
  | root t => rfl
  | field _ _ ih => rw [List.length_cons, List.length_cons, ih]

/-- The places are those to which as many positions lead. -/
theorem mem_placesAt {x : Place} : x ∈ placesAt k t ↔
    x.positions.length = k ∧ t.Descends x.positions x.names x.fieldType := by
  induction k generalizing t x with
  | zero =>
    rw [placesAt, List.mem_singleton]
    constructor
    · rintro rfl
      exact ⟨rfl, .root t⟩
    · obtain ⟨positions, names, u⟩ := x
      rintro ⟨hlength, h⟩
      obtain rfl := List.length_eq_zero_iff.1 hlength
      cases h
      rfl
  | succ k ih =>
    simp only [placesAt, List.mem_flatMap, List.mem_map, List.mem_zipIdx_iff_getElem?]
    constructor
    · rintro ⟨f, hf, y, hy, rfl⟩
      obtain ⟨hlength, h⟩ := ih.1 hy
      exact ⟨congrArg Nat.succ hlength, descends_cons_iff.2 ⟨_, _, hf, rfl, h⟩⟩
    · obtain ⟨positions, names, u⟩ := x
      rintro ⟨hlength, h⟩
      cases positions with
      | nil => cases hlength
      | cons i positions =>
        obtain ⟨f, names', hf, rfl, h⟩ := descends_cons_iff.1 h
        exact ⟨(f, i), hf, ⟨positions, names', u⟩, ih.2 ⟨Nat.succ.inj hlength, h⟩, rfl⟩

/-- Positions ascend along a list. -/
theorem pairwise_lt_zipIdx {α : Type} (l : List α) : l.zipIdx.Pairwise fun a b => a.2 < b.2 := by
  rw [← List.pairwise_map (f := Prod.snd) (R := (· < ·)), List.zipIdx_map_snd]
  exact List.pairwise_lt_range' 1

/-- The places come in the order of their positions: below one field by induction, and of two fields
by the first position. -/
theorem pairwise_placesAt (k : Nat) (t : Ty) :
    (placesAt k t).Pairwise fun x y => List.Lex (· < ·) x.positions y.positions := by
  induction k generalizing t with
  | zero => exact List.pairwise_singleton _ _
  | succ k ih =>
    rw [placesAt, List.pairwise_flatMap]
    constructor
    · intro f _
      rw [List.pairwise_map]
      exact (ih f.1.2).imp .cons
    · -- places below different fields differ first in the positions of these
      refine (pairwise_lt_zipIdx _).imp ?_
      intro f g hlt x hx y hy
      obtain ⟨x, -, rfl⟩ := List.mem_map.1 hx
      obtain ⟨y, -, rfl⟩ := List.mem_map.1 hy
      exact .rel hlt

/-- So the places make up the level. -/
theorem isLevel_placesAt (k : Nat) (t : Ty) : t.IsLevel k (placesAt k t) :=
  ⟨fun _ => mem_placesAt, pairwise_placesAt k t⟩

/-- Fields of one name are different places. -/
example : (placesAt 2 (.record [("a", .record [("x", .int), ("x", .text)]), ("b", .int),
    ("c", .record [("x", .int)])])).map Place.positions = [[0, 0], [0, 1], [2, 0]] :=
  rfl

/-! ## Levels as places -/

/-- The fields one step below. -/
def fieldsBelow (x : Path × Ty) : List (Path × Ty) :=
  (x.2.fields?.getD []).map fun f => (x.1.child (.field f.1), f.2)

/-- A level is made up of those below the fields, one step further up. -/
theorem level_levels_succ (k : Nat) (path : Path) (t : Ty) :
    Levels.level (k + 1) (t.levels path) =
      (fieldsBelow (path, t)).flatMap fun x => Levels.level k (x.2.levels x.1) := by
  rw [fieldsBelow, List.flatMap_map]
  by_cases hrecord : ∃ fields, t = record fields
  · obtain ⟨fields, rfl⟩ := hrecord
    exact level_levels_record_succ k path fields
  · have hnone : t.fields? = none := by
      cases t with
      | record fields => exact absurd ⟨fields, rfl⟩ hrecord
      | _ => rfl
    rw [level_levels_succ_of_ne (not_exists.1 hrecord), hnone]
    rfl

/-- Each level is made of the fields one step below those of the level above. -/
theorem level_levels_flatMap (k : Nat) (path : Path) (t : Ty) :
    Levels.level (k + 1) (t.levels path) =
      (Levels.level k (t.levels path)).flatMap fieldsBelow := by
  induction k generalizing path t with
  | zero =>
    rw [level_levels_succ, level_levels_zero, List.flatMap_singleton]
    simp only [level_levels_zero, List.flatMap_singleton']
  | succ k ih =>
    rw [level_levels_succ, level_levels_succ k path t, List.flatMap_assoc]
    simp only [ih]

/-- A function that does not look at positions does not need them. -/
theorem flatMap_fst_zipIdx {α β : Type} (g : α → List β) (l : List α) :
    (l.zipIdx.flatMap fun f => g f.1) = l.flatMap g := by
  conv_rhs => rw [← List.zipIdx_map_fst 0 l, List.flatMap_map]

/-- The levels that the search collects are those places, without their positions. -/
theorem level_levels_eq_map (k : Nat) (path : Path) (t : Ty) : Levels.level k (t.levels path) =
    (placesAt k t).map fun x => (path ++ Path.fields x.names, x.fieldType) := by
  induction k generalizing path t with
  | zero =>
    rw [level_levels_zero]
    simp [placesAt, Path.fields]
  | succ k ih =>
    rw [level_levels_succ, fieldsBelow, List.flatMap_map, placesAt, List.map_flatMap]
    calc
      _ = (t.fields?.getD []).flatMap fun f => (placesAt k f.2).map fun x =>
          (path ++ Path.fields (f.1 :: x.names), x.fieldType) := by
        refine List.flatMap_congr fun f _ => ?_
        rw [ih]
        simp [Path.child, Path.fields]
      _ = _ := by
        simp only [List.map_map]
        exact (flatMap_fst_zipIdx _ _).symm

/-- So are the fields up to some depth, level by level. -/
theorem fieldsUpTo_eq_map (schema : Ty) (maxDepth : Nat) : schema.fieldsUpTo maxDepth =
    ((List.range (maxDepth + 1)).flatMap (placesAt · schema)).map fun x =>
      (Path.fields x.names, x.fieldType) := by
  rw [fieldsUpTo, Levels.flatten_take, List.map_flatMap]
  refine List.flatMap_congr fun k _ => ?_
  rw [level_levels_eq_map]
  rfl

/-- Fields further down come later. -/
theorem pairwise_length_placesAt (schema : Ty) (n : Nat) :
    ((List.range n).flatMap (placesAt · schema)).Pairwise fun x y =>
      x.names.length ≤ y.names.length := by
  have hlength : ∀ k, ∀ x ∈ placesAt k schema, x.names.length = k := by
    intro k x hx
    obtain ⟨hk, h⟩ := mem_placesAt.1 hx
    rw [h.length_names, hk]
  rw [List.pairwise_flatMap]
  constructor
  · intro k _
    apply List.pairwise_of_forall_mem_list
    intro x hx y hy
    rw [hlength k x hx, hlength k y hy]
  · refine List.pairwise_lt_range.imp ?_
    intro j k hjk x hx y hy
    rw [hlength j x hx, hlength k y hy]
    exact hjk.le

end Ty

/-! ## The queue -/

namespace FieldQueue

variable {operations : List Operation} {role : Role} {maxDepth : Nat} {oracle : Ty → Ty → Bool}

/-- The fields of one level, waiting. -/
def waiting (depth : Nat) (fields : List (Path × Ty)) : List Waiting :=
  fields.map fun x => ⟨x.1, x.2, depth⟩

/-- Below a level that is not too deep, the next one is put into the queue. -/
theorem below_waiting_of_lt {depth : Nat} (h : depth < maxDepth) (fields : List (Path × Ty)) :
    (waiting depth fields).flatMap (Waiting.below maxDepth) =
      waiting (depth + 1) (fields.flatMap Ty.fieldsBelow) := by
  rw [waiting, waiting, List.flatMap_map, List.map_flatMap]
  refine List.flatMap_congr fun x _ => ?_
  rw [Waiting.below, if_pos h, Ty.fieldsBelow, List.map_map]
  dsimp only
  cases x.2.fields? <;> rfl

/-- Below the deepest level nothing is put into the queue. -/
theorem below_waiting_self (fields : List (Path × Ty)) :
    (waiting maxDepth fields).flatMap (Waiting.below maxDepth) = [] := by
  rw [waiting, List.flatMap_map, List.flatMap_eq_nil_iff]
  intro x _
  exact if_neg (lt_irrefl _)

/-- After a round for each of the first fields, those below them wait behind the others. -/
theorem search_append (here next : List Waiting) (found : List DiscoveredField) (rounds : Nat) :
    search operations role maxDepth oracle (rounds + here.length) (here ++ next) found =
      search operations role maxDepth oracle rounds
        (next ++ here.flatMap (Waiting.below maxDepth))
        (found ++ here.filterMap fun w =>
          DiscoveredField.of? operations role oracle (w.path, w.fieldType)) := by
  induction here generalizing next found with
  | nil => simp
  | cons w here ih =>
    rw [List.length_cons, ← Nat.add_assoc, List.cons_append, search, List.append_assoc, ih,
      List.flatMap_cons, List.append_assoc]
    congr 1
    rw [List.append_assoc, List.filterMap_cons]
    cases DiscoveredField.of? operations role oracle (w.path, w.fieldType) <;> rfl

/-- So a level gives way to the fields one step below it. -/
theorem search_waiting (depth : Nat) (fields : List (Path × Ty)) (found : List DiscoveredField)
    (rounds : Nat) :
    search operations role maxDepth oracle (rounds + fields.length) (waiting depth fields) found =
      search operations role maxDepth oracle rounds
        ((waiting depth fields).flatMap (Waiting.below maxDepth))
        (found ++ fields.filterMap (DiscoveredField.of? operations role oracle)) := by
  have hlength : fields.length = (waiting depth fields).length := (List.length_map _).symm
  have hentries : fields.filterMap (DiscoveredField.of? operations role oracle) =
      (waiting depth fields).filterMap fun w =>
        DiscoveredField.of? operations role oracle (w.path, w.fieldType) := by
    rw [waiting, List.filterMap_map]
    rfl
  rw [hlength, hentries]
  simpa only [List.append_nil, List.nil_append] using
    search_append (waiting depth fields) [] found rounds

/-- From the fields of one level the search goes through those of the levels below it, as far as
they are not too deep. -/
theorem search_levels (schema : Ty) (found : List DiscoveredField) (rounds depth more : Nat)
    (h : depth + more = maxDepth) :
    let visited := (List.range' depth (more + 1)).flatMap (Levels.level · (schema.levels []))
    search operations role maxDepth oracle (rounds + visited.length)
        (waiting depth (Levels.level depth (schema.levels []))) found =
      some (found ++ visited.filterMap (DiscoveredField.of? operations role oracle)) := by
  intro visited
  induction more generalizing depth found with
  | zero =>
    obtain rfl : depth = maxDepth := h
    have hvisited : visited = Levels.level depth (schema.levels []) := List.flatMap_singleton _ _
    rw [hvisited, search_waiting, below_waiting_self, search]
  | succ more ih =>
    -- after a round for each of its fields, the level has left the next one in the queue
    have hdeeper := ih (found ++ (Levels.level depth (schema.levels [])).filterMap
      (DiscoveredField.of? operations role oracle)) (depth + 1) (by omega)
    have hvisited : visited = Levels.level depth (schema.levels []) ++
        (List.range' (depth + 1) (more + 1)).flatMap (Levels.level · (schema.levels [])) := rfl
    rw [hvisited, List.length_append, Nat.add_comm (List.length _), ← Nat.add_assoc,
      search_waiting, below_waiting_of_lt (by omega), ← Ty.level_levels_flatMap, hdeeper,
      List.filterMap_append, List.append_assoc]

/-- The search comes to its end after as many rounds as there are fields. -/
theorem discover_eq (schema : Ty) (rounds : Nat) :
    discover operations role maxDepth oracle schema
        (rounds + (schema.fieldsUpTo maxDepth).length) =
      some (discoverFields schema operations role maxDepth oracle) := by
  have hlevels : schema.fieldsUpTo maxDepth = (List.range' 0 (maxDepth + 1)).flatMap
      (Levels.level · (schema.levels [])) := by
    rw [Ty.fieldsUpTo, Levels.flatten_take, List.range_eq_range']
  have hroot : waiting 0 (Levels.level 0 (schema.levels [])) = [⟨[], schema, 0⟩] := by
    rw [Ty.level_levels_zero]
    rfl
  rw [discover, ← hroot, hlevels, search_levels schema [] rounds 0 maxDepth (Nat.zero_add _),
    discoverFields, hlevels, List.nil_append]

end FieldQueue

/-! ## What is discovered -/

/-- A field to which nothing applies is left out. -/
theorem DiscoveredField.of?_eq (operations : List Operation) (role : Role)
    (oracle : Ty → Ty → Bool) (path : Path) (t : Ty) :
    let applicable := operations.filterMap (·.forField? role oracle t)
    of? operations role oracle (path, t) =
      if applicable.isEmpty then none else some ⟨path, t, applicable⟩ := by
  intro applicable
  rw [of?]
  dsimp only
  cases h : operations.filterMap (·.forField? role oracle t) with
  | nil => simp [applicable, h]
  | cons op ops => simp [applicable, h]

/-- Of the places in a schema those are left out to which nothing applies. -/
theorem discoverFields_eq (schema : Ty) (operations : List Operation) (role : Role)
    (maxDepth : Nat) (oracle : Ty → Ty → Bool) :
    let applicable := fun t : Ty => operations.filterMap (·.forField? role oracle t)
    let places := (List.range (maxDepth + 1)).flatMap (Ty.placesAt · schema)
    discoverFields schema operations role maxDepth oracle =
      (places.filter fun x => !(applicable x.fieldType).isEmpty).map fun x =>
        ⟨Path.fields x.names, x.fieldType, applicable x.fieldType⟩ := by
  intro applicable places
  rw [discoverFields, Ty.fieldsUpTo_eq_map, List.filterMap_map]
  show places.filterMap _ = _
  induction places with
  | nil => rfl
  | cons x rest ih =>
    rw [List.filterMap_cons, List.filter_cons, ih, Function.comp_apply, DiscoveredField.of?_eq]
    cases (applicable x.fieldType).isEmpty <;> rfl

/-- Discovery goes through the levels of a schema from above, each in the order of its places, and
keeps those to which an operation applies.  The queue runs empty after as many rounds as there are
places that are not too deep, and more of them make no difference. -/
theorem discoverFields_breadthFirst (schema : Ty) (operations : List Operation) (role : Role)
    (oracle : Ty → Ty → Bool) :
    let applicable := fun t : Ty => operations.filterMap (·.forField? role oracle t)
    let discovered := fun maxDepth => discoverFields schema operations role maxDepth oracle
    (∃ places : Nat → List Ty.Place, (∀ k, schema.IsLevel k (places k)) ∧
      ∀ maxDepth, let visited := (List.range (maxDepth + 1)).flatMap places
        (∀ spare, FieldQueue.discover operations role maxDepth oracle schema
          (spare + visited.length) = some (discovered maxDepth)) ∧
        discovered maxDepth = (visited.filter fun x => !(applicable x.fieldType).isEmpty).map
          fun x => ⟨Path.fields x.names, x.fieldType, applicable x.fieldType⟩) ∧
    (∀ maxDepth, (discovered maxDepth).Pairwise fun a b => a.path.length ≤ b.path.length) ∧
    ∀ maxDepth more, discovered maxDepth <+: discovered (maxDepth + more) := by
  intro applicable discovered
  refine ⟨⟨(Ty.placesAt · schema), fun k => Ty.isLevel_placesAt k schema, fun maxDepth => ?_⟩,
    fun maxDepth => ?_, fun maxDepth more => ?_⟩
  · constructor
    · intro spare
      rw [← FieldQueue.discover_eq schema spare, Ty.fieldsUpTo_eq_map, List.length_map]
    · exact discoverFields_eq schema operations role maxDepth oracle
  · show (discoverFields schema operations role maxDepth oracle).Pairwise _
    rw [discoverFields_eq, List.pairwise_map]
    refine ((Ty.pairwise_length_placesAt schema (maxDepth + 1)).filter _).imp ?_
    intro x y hxy
    simpa only [Path.fields, List.length_map] using hxy
  · -- a greater depth takes more levels from the same list of levels
    apply List.IsPrefix.filterMap
    apply List.IsPrefix.flatten
    exact List.take_prefix_take_left (by omega)

end RecordRules
