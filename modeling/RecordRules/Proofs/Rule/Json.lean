import RecordRules.Proofs.Json.Members
import RecordRules.Proofs.Rule.Leaves
import RecordRules.Proofs.Value.Json
import RecordRules.Rule.Json

/-!
# Rules that are read back

What is read from the JSON of a rule is the rule with each of its filters read again
(`Rule.ofJsonAt_of_toJson`).  A draft is read back exactly if no record in its arguments holds a
text under the key of tags (`Draft.reread_of_tagFree`, `Draft.tagFree_of_reread`).
-/

namespace RecordRules

/-! ## Paths -/

/-- A 64-bit number is read back. -/
theorem Json.asNat?_ofNat {n : Nat} (h : n < UInt64.size) : (ofNat n).asNat? = some n := by
  rw [ofNat, asNat?, if_pos ⟨Int.natCast_nonneg n, Int.ofNat_lt.2 h⟩, Int.toNat_natCast]

/-- Every step of a path is read back, positions included, since these fit into 64 bits. -/
theorem Step.ofJson?_toJson (s : Step) : Step.ofJson? s.toJson = some s := by
  cases s with
  | field name => rfl
  | index i =>
    rw [toJson, ofJson?, Json.asNat?_ofNat i.toNat_lt, Option.map_some, UInt64.ofNat_toNat]
    nofun

/-- Every path is read back. -/
theorem Path.ofJson?_toJson (p : Path) : Path.ofJson? p.toJson = some p :=
  Json.asListOf?_map fun s _ => s.ofJson?_toJson

/-! ## Single filters -/

/-- What is read from the JSON of a filter. -/
def LeafJson.reread {α : Type} [LeafJson α] (a : α) : Except DecodeError α := do
  let members ← (toMembers a).mapError .value
  ofJson (.obj (members ++ [(Rule.typeKey, .str Rule.leafType)]))

/-- Filters write no member of their own under the key for the type of a rule. -/
class LawfulLeafJson (α : Type) [LeafJson α] : Prop where
  get?_typeKey : ∀ (a : α) members, LeafJson.toMembers a = .ok members →
    Entries.get? Rule.typeKey members = none

/-- Reading a filter back starts from its members and the mark of filters behind them. -/
theorem LeafJson.reread_of_toMembers {α : Type} [LeafJson α] {a : α}
    {members : List (String × Json)} (h : toMembers a = .ok members) :
    reread a = ofJson (.obj (members ++ [(Rule.typeKey, .str Rule.leafType)])) := by
  rw [reread, h]
  rfl

namespace Draft

variable {f g : Draft} {members : List (String × Json)}

/-- A filter is written in the order of its keys, when its arguments can be; what it does not have
is left out. -/
theorem toMembers_eq_ok_iff :
    LeafJson.toMembers f = .ok members ↔
      ∃ items, List.Forall₂ (fun v j => v.toJson = .ok j) f.arguments items ∧
        [("arguments", .arr items), ("id", .str f.id)]
          ++ (f.invert.map fun b => ("invert", .bool b)).toList
          ++ (f.operation.map fun name => ("operationName", .str name)).toList
          ++ (f.path.map fun p => ("path", p.toJson)).toList = members := by
  simp only [LeafJson.toMembers, toMembers, bind_eq_ok_iff, pure_eq_ok_iff,
    Value.toJsonItems_eq_ok_iff]

instance : LawfulLeafJson Draft where
  get?_typeKey f members h := by
    obtain ⟨arguments, -, rfl⟩ := toMembers_eq_ok_iff.1 h
    simp [Rule.typeKey, Entries.get?_append, Entries.get?_cons, Entries.get?_toList_map,
      Entries.get?]

/-- A draft is read from members that hold its parts, whatever else they hold. -/
theorem ofMembers?_eq_some (arguments : List Value)
    (hid : Entries.get? "id" members = some (.str f.id))
    (hpath : Entries.get? "path" members = f.path.map Path.toJson)
    (hoperation : Entries.get? "operationName" members = f.operation.map .str)
    (hinvert : Entries.get? "invert" members = f.invert.map .bool) :
    LeafJson.ofMembers? arguments members = some { f with arguments } := by
  have hp := Json.optional?_nullable? Path.ofJson? hpath fun p _ =>
    congrArg (Option.map some) p.ofJson?_toJson
  have ho := Json.optional?_nullable? Json.asStr? hoperation fun _ _ => rfl
  have hi := Json.optional?_nullable? Json.asBool? hinvert fun _ _ => rfl
  simp only [LeafJson.ofMembers?, ofMembers?, Json.required?, hid, hp, ho, hi]
  simp [Json.asStr?]

/-- All parts of a draft are read back, the arguments as their JSON is read. -/
theorem exists_reread (h : LeafJson.toMembers f = .ok members) :
    ∃ items, List.Forall₂ (fun v j => v.toJson = .ok j) f.arguments items ∧
      LeafJson.reread f =
        ((Value.ofItems items).mapError .value).map fun arguments => { f with arguments } := by
  rw [LeafJson.reread_of_toMembers h]
  obtain ⟨items, hitems, rfl⟩ := toMembers_eq_ok_iff.1 h
  refine ⟨items, hitems, ?_⟩
  generalize hall : _ ++ [(Rule.typeKey, Json.str Rule.leafType)] = all
  have hparts (arguments) : LeafJson.ofMembers? arguments all = some { f with arguments } := by
    subst hall
    apply ofMembers?_eq_some arguments <;>
      simp [Rule.typeKey, Entries.get?_append, Entries.get?_cons, Entries.get?_toList_map,
        Entries.get?]
  have hread : readArguments all = (Value.ofItems items).mapError .value := by
    subst hall
    rfl
  simp only [LeafJson.ofJson, hread, hparts]
  cases (Value.ofItems items).mapError DecodeError.value <;> rfl

/-- The draft that is read back: the zeros in its arguments have lost their signs. -/
def asRead (f : Draft) : Draft := { f with arguments := f.arguments.map Value.asRead }

/-- A draft is read back if no record in its arguments holds a text under the key of tags. -/
theorem reread_of_tagFree (hargs : ∀ v ∈ f.arguments, v.tagFree = true)
    (h : LeafJson.toMembers f = .ok members) : LeafJson.reread f = .ok f.asRead := by
  obtain ⟨items, hitems, hread⟩ := exists_reread h
  have hlist : Value.ofJson (.arr items) = .ok (.list (f.arguments.map Value.asRead)) := by
    rw [← Value.itemsAsRead_eq, ← Value.asRead]
    exact Value.ofJson_of_toJson (Value.list_toJson_eq_ok_iff.2 ⟨items, hitems, rfl⟩)
      (Value.list_tagFree_iff.2 hargs)
  obtain ⟨arguments, hback, heq⟩ := map_eq_ok_iff.1 hlist
  obtain rfl := Value.list.inj heq
  rw [hread, hback]
  rfl

/-- A filter without negative zeros is read back as the very same. -/
theorem asRead_of_zerosUnsigned (h : ∀ v ∈ f.arguments, v.zerosUnsigned = true) :
    f.asRead = f := by
  rw [asRead, Value.map_asRead_of_zerosUnsigned h]

/-- Filters are equal when they have equal parts, and only their arguments may differ in form. -/
theorem beq_iff : (f == g) = true ↔
    f.id = g.id ∧ f.path = g.path ∧ f.operation = g.operation ∧
      (f.arguments == g.arguments) = true ∧ f.invert = g.invert := by
  cases f
  cases g
  change instBEqDraft.beq _ _ = true ↔ _
  simp [instBEqDraft.beq]

/-- Every filter equals itself. -/
theorem beq_refl (f : Draft) : (f == f) = true :=
  beq_iff.2 ⟨rfl, rfl, rfl, list_beq_iff_forall₂.2 (List.forall₂_same.2 fun v _ => v.beq_refl), rfl⟩

/-- The filter that is read back equals the one written. -/
theorem asRead_beq (f : Draft) : (f.asRead == f) = true :=
  beq_iff.2 ⟨rfl, rfl, rfl, Value.map_asRead_beq f.arguments, rfl⟩

/-- Only such a draft is read back. -/
theorem tagFree_of_reread (h : LeafJson.toMembers f = .ok members)
    (hg : LeafJson.reread f = .ok g) (heq : (g == f) = true) :
    ∀ v ∈ f.arguments, v.tagFree = true := by
  obtain ⟨items, hitems, hread⟩ := exists_reread h
  rw [hread] at hg
  obtain ⟨arguments, hback, rfl⟩ := map_eq_ok_iff.1 hg
  obtain ⟨-, -, -, hargs, -⟩ := beq_iff.1 heq
  have hlist : Value.ofJson (.arr items) = .ok (.list arguments) := by
    rw [Value.ofJson_arr, mapError_eq_ok_iff.1 hback]
    rfl
  have heq : (Value.list arguments == .list f.arguments) = true :=
    Value.list_beq_iff.2 ⟨_, rfl, list_beq_iff_forall₂.1 hargs⟩
  exact Value.list_tagFree_iff.1 <| Value.tagFree_of_ofJson
    (Value.list_toJson_eq_ok_iff.2 ⟨items, hitems, rfl⟩) hlist heq

end Draft

/-! ## Trees -/

namespace Rule

variable {α : Type} [LeafJson α] {r : Rule α} {j : Json}

/-- A leaf is written as its filter with the mark of filters behind it. -/
theorem leaf_toJson_eq_ok_iff {a : α} :
    (leaf a).toJson = .ok j ↔
      ∃ members, LeafJson.toMembers a = .ok members ∧
        .obj (members ++ [(typeKey, .str leafType)]) = j := by
  simp only [toJson, bind_eq_ok_iff, pure_eq_ok_iff]

/-- A list of rules is written when each of them is. -/
theorem toJsonList_eq_ok_iff {rs : List (Rule α)} {js : List Json} :
    toJsonList rs = .ok js ↔ List.Forall₂ (fun r j => r.toJson = .ok j) rs js := by
  have hmapM : toJsonList rs = rs.mapM toJson := by
    induction rs with
    | nil => rfl
    | cons r rest ih => rw [toJsonList, ih, List.mapM_cons]
  rw [hmapM, mapM_eq_ok_iff]

/-- The members of a group whose conditions are written as `items`. -/
def groupMembers (id : String) (op : Connective) (invert : Bool) (items : List Json) :
    List (String × Json) :=
  [("conditions", .arr items), ("id", .str id)]
    ++ (if invert then [("invert", .bool true)] else [])
    ++ [("op", .str op.name), (typeKey, .str groupType)]

/-- A group is written when its conditions are. -/
theorem group_toJson_eq_ok_iff {id : String} {op : Connective} {invert : Bool}
    {conditions : List (Rule α)} :
    (group id op invert conditions).toJson = .ok j ↔
      ∃ items, List.Forall₂ (fun r j => r.toJson = .ok j) conditions items ∧
        .obj (groupMembers id op invert items) = j := by
  simp only [toJson, bind_eq_ok_iff, pure_eq_ok_iff, toJsonList_eq_ok_iff]
  rfl

/-- A rule that can be written has filters that can be. -/
theorem exists_toMembers_of_toJson (h : r.toJson = .ok j) {a : α} (ha : a ∈ r.leaves) :
    ∃ members, LeafJson.toMembers a = .ok members := by
  induction r generalizing j with
  | leaf b =>
    obtain rfl := mem_leaves_leaf.1 ha
    obtain ⟨members, hmembers, -⟩ := leaf_toJson_eq_ok_iff.1 h
    exact ⟨members, hmembers⟩
  | group id op invert conditions ih =>
    obtain ⟨items, hitems, -⟩ := group_toJson_eq_ok_iff.1 h
    obtain ⟨c, hc, hac⟩ := mem_leaves_group.1 ha
    obtain ⟨i, hi, hci⟩ := exists_mem_of_forall₂ hitems.flip hc
    exact ih c hc hci hac

/-- A group is read back from its members when its conditions are, also at the root. -/
theorem ofJsonAt_groupMembers (place : Json.Place) (id : String) (op : Connective) (invert : Bool)
    (items : List Json) :
    ofJsonAt place (.obj (groupMembers id op invert items)) =
      (ofJsonList items : Except DecodeError (List (Rule α))).map (group id op invert) := by
  have htype : Entries.get? typeKey (groupMembers id op invert items) = some (.str groupType) := by
    cases invert <;> rfl
  have hheader : ofHeader? (groupMembers id op invert items) = some (id, op, invert) := by
    cases invert <;> cases op <;> rfl
  have hparts (conditions : List (Rule α)) :
      ofParts (groupMembers id op invert items) conditions
        = .ok (group id op invert conditions) := by
    rw [ofParts, hheader]
    rfl
  rw [ofJsonAt, htype]
  change (ofJsonList items >>= ofParts (groupMembers id op invert items)) = _
  rw [funext hparts]
  cases (ofJsonList items : Except DecodeError (List (Rule α))) <;> rfl

/-- Conditions are read back when each of them is. -/
theorem ofJsonList_of_forall₂ {rs : List (Rule α)} {js : List Json}
    (h : List.Forall₂ (fun r j => ofJsonAt .inner j = r.traverse LeafJson.reread) rs js) :
    ofJsonList js = traverseList LeafJson.reread rs := by
  induction h with
  | nil => rfl
  | cons hr _ ih => rw [ofJsonList, traverseList, hr, ih]

/-- What is read from the JSON of a rule is the rule with each of its filters read again. -/
theorem ofJsonAt_of_toJson [LawfulLeafJson α] (h : r.toJson = .ok j) (place : Json.Place) :
    ofJsonAt place j = r.traverse LeafJson.reread := by
  induction r generalizing j place with
  | leaf a =>
    obtain ⟨members, hmembers, rfl⟩ := leaf_toJson_eq_ok_iff.1 h
    have htype : Entries.get? typeKey (members ++ [(typeKey, .str leafType)])
        = some (.str leafType) := by
      rw [Entries.get?_append, LawfulLeafJson.get?_typeKey a members hmembers]
      rfl
    rw [traverse, LeafJson.reread_of_toMembers hmembers, ofJsonAt, htype]
    rfl
  | group id op invert conditions ih =>
    obtain ⟨items, hitems, rfl⟩ := group_toJson_eq_ok_iff.1 h
    rw [ofJsonAt_groupMembers, traverse, ofJsonList_of_forall₂]
    exact forall₂_imp_of_mem hitems fun c hc j hj => ih c hc hj .inner

end Rule

end RecordRules
