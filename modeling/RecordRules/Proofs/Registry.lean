import Mathlib.Data.List.Nodup
import RecordRules.Registry

/-!
# What registration keeps

The index leads from each name to the position of the operation with this name, so an operation
is found by its name.  Standard operations fit the role.  Both hold after any registrations
(`sound_registerAll`).
-/

namespace RecordRules

/-- A standard operation suits a role that accepts its signature.  Of a generic one nothing is
required until it is instantiated. -/
def Operation.Suits (role : Role) : Operation → Prop
  | standard op => role.accepts op.signature = true
  | generic _ => True

/-- Both roles ask for a parameter, the field. -/
theorem Role.params_ne_nil_of_accepts {role : Role} {s : Signature} (h : role.accepts s = true) :
    s.params ≠ [] := by
  intro hnil
  cases role <;> simp [accepts, hnil] at h

namespace Registry

variable {r r' : Registry} {op : Operation}

/-- Parameters are asked for first, but a role does not accept a signature without any. -/
theorem unfit?_eq_none_iff {role : Role} : unfit? role op = none ↔ op.Suits role := by
  cases op with
  | generic op => simp [unfit?, Operation.Suits]
  | standard op =>
    rw [unfit?, Operation.Suits]
    cases haccepts : role.accepts op.signature with
    | false => cases op.signature.params.isEmpty <;> simp
    | true =>
      have hparams := Role.params_ne_nil_of_accepts haccepts
      simp [hparams]

/-- The index has the positions of all names, and no others. -/
def Indexed (r : Registry) : Prop :=
  ∀ name i, r.index.get? name = some i ↔ (r.operations[i]?).map Operation.name = some name

/-- A new registry has no names and an empty index. -/
theorem indexed_empty (role : Role) : (empty role).Indexed := by
  intro name i
  simp [empty]

/-- An operation is registered when its name is new and its signature fits, and is then added at the
end. -/
theorem register_eq_ok_iff : r.register op = .ok r' ↔
    r.contains op.name = false ∧ unfit? r.role op = none ∧
      r' = ⟨r.role, r.operations.push op, r.index.insert op.name r.operations.size⟩ := by
  unfold register
  cases r.contains op.name <;> cases unfit? r.role op <;> simp [eq_comm]

/-- The new name leads to the end of the list, where the operation stands. -/
theorem Indexed.register (h : r.Indexed) (hr : r.register op = .ok r') : r'.Indexed := by
  obtain ⟨hnew, -, rfl⟩ := register_eq_ok_iff.1 hr
  have hfree : r.index.get? op.name = none := KeyMap.contains_eq_false_iff.1 hnew
  intro name i
  have hbefore := h name i
  rw [KeyMap.get?_insert, Array.getElem?_push]
  by_cases hname : op.name = name
  · subst hname
    rw [hfree] at hbefore
    by_cases hi : i = r.operations.size
    · simp [hi]
    · simpa [hi, Ne.symm hi] using hbefore
  · by_cases hi : i = r.operations.size
    · subst hi
      simpa [hname] using hbefore
    · simpa [hname, hi] using hbefore

/-- Operations that are all registered stand behind those before, in their order. -/
theorem foldlM_register_eq_ok {ops : List Operation} (h : ops.foldlM register r = .ok r')
    (hr : r.Indexed) :
    r'.Indexed ∧ r'.role = r.role ∧ r'.operations.toList = r.operations.toList ++ ops := by
  induction ops generalizing r with
  | nil =>
    cases h
    simp [hr]
  | cons op rest ih =>
    rw [List.foldlM_cons] at h
    cases hop : r.register op with
    | error err =>
      rw [hop] at h
      cases h
    | ok r₁ =>
      rw [hop] at h
      obtain ⟨hindexed, hrole, hoperations⟩ := ih h (hr.register hop)
      obtain ⟨-, -, rfl⟩ := register_eq_ok_iff.1 hop
      refine ⟨hindexed, hrole, ?_⟩
      simpa using hoperations

/-- A registry holds the operations that it was made from, in their order. -/
theorem ofList_eq_ok {role : Role} {ops : List Operation} (h : ofList role ops = .ok r) :
    r.Indexed ∧ r.role = role ∧ r.operations.toList = ops := by
  simpa [empty] using foldlM_register_eq_ok h (indexed_empty role)

/-- What is found by a name is a registered operation of that name. -/
theorem Indexed.get?_eq_some (h : r.Indexed) {name : String} (hop : r.get? name = some op) :
    op ∈ r.operations.toList ∧ op.name = name := by
  rw [get?, Option.bind_eq_some_iff] at hop
  obtain ⟨i, hindex, hi⟩ := hop
  have hname := (h name i).1 hindex
  rw [hi] at hname
  exact ⟨Array.mem_toList_iff.2 (Array.mem_of_getElem? hi), Option.some.inj hname⟩

/-- A registered operation is found by its name, wherever it stands. -/
theorem Indexed.get?_of_getElem? (h : r.Indexed) {i : Nat} (hi : r.operations[i]? = some op) :
    r.get? op.name = some op := by
  have hindex : r.index.get? op.name = some i := (h op.name i).2 (by rw [hi]; rfl)
  rw [get?, hindex]
  exact hi

/-- The lookup by name finds exactly the registered operations. -/
theorem Indexed.get?_eq_some_iff (h : r.Indexed) {name : String} :
    r.get? name = some op ↔ op ∈ r.operations.toList ∧ op.name = name := by
  refine ⟨h.get?_eq_some, ?_⟩
  rintro ⟨hop, rfl⟩
  obtain ⟨i, hi⟩ := List.mem_iff_getElem?.1 hop
  exact h.get?_of_getElem? (by rw [← Array.getElem?_toList, hi])

/-- The index leads to the position at which an operation of the name stands. -/
theorem Indexed.get?_index_iff (h : r.Indexed) {name : String} {i : Nat} :
    r.index.get? name = some i ↔ ∃ hi : i < r.operations.size, r.operations[i].name = name := by
  rw [h name i, Option.map_eq_some_iff]
  constructor
  · rintro ⟨op, hop, hname⟩
    obtain ⟨hi, rfl⟩ := Array.getElem?_eq_some_iff.1 hop
    exact ⟨hi, hname⟩
  · rintro ⟨hi, hname⟩
    exact ⟨_, Array.getElem?_eq_getElem hi, hname⟩

/-- The names in the index are those of the operations. -/
theorem Indexed.mem_keys_iff (h : r.Indexed) {name : String} :
    name ∈ r.index.keys ↔ name ∈ r.operations.toList.map Operation.name := by
  rw [KeyMap.mem_keys, KeyMap.contains_iff, List.mem_iff_getElem?]
  refine exists_congr fun i => ?_
  rw [h name i, List.getElem?_map, Array.getElem?_toList]

/-- A name that stood in two places would be led to both of them. -/
theorem Indexed.nodup_names (h : r.Indexed) : (r.operations.toList.map Operation.name).Nodup := by
  rw [List.nodup_iff_getElem?_ne_getElem?]
  intro i j hij hj heq
  rw [List.getElem?_map, List.getElem?_map, Array.getElem?_toList, Array.getElem?_toList] at heq
  have hlt : j < r.operations.size := by simpa using hj
  -- the index has room for one position under each name
  have hindexj := h.get?_index_iff.2 ⟨hlt, rfl⟩
  have hindexi := (h _ i).2 (heq.trans ((h _ j).1 hindexj))
  obtain rfl : i = j := Option.some.inj (hindexi.symm.trans hindexj)
  exact Nat.lt_irrefl i hij

/-- Each operation that a registry was made from is found by its name. -/
theorem get?_of_ofList {role : Role} {ops : List Operation} (h : ofList role ops = .ok r)
    (hop : op ∈ ops) : r.get? op.name = some op := by
  obtain ⟨hindexed, -, hoperations⟩ := ofList_eq_ok h
  exact hindexed.get?_eq_some_iff.2 ⟨hoperations ▸ hop, rfl⟩

/-! ## Histories -/

/-- The registry after these registrations, of which those that are refused change nothing. -/
def registerAll (r : Registry) (ops : List Operation) : Registry :=
  ops.foldl (fun r op => (r.register op).toOption.getD r) r

/-- What every registration keeps holds after any number of them. -/
theorem registerAll_induction {P : Registry → Prop} (hr : P r)
    (hstep : ∀ r op r', P r → r.register op = .ok r' → P r') (ops : List Operation) :
    P (r.registerAll ops) := by
  induction ops generalizing r with
  | nil => exact hr
  | cons op ops ih =>
    rw [registerAll, List.foldl_cons]
    apply ih
    cases hop : r.register op with
    | error err => exact hr
    | ok r' => exact hstep r op r' hr hop

/-- Registrations do not change the role. -/
theorem role_registerAll (r : Registry) (ops : List Operation) :
    (r.registerAll ops).role = r.role := by
  apply registerAll_induction (P := fun r' => r'.role = r.role) rfl
  intro r' op r'' hr' hop
  obtain ⟨-, -, rfl⟩ := register_eq_ok_iff.1 hop
  exact hr'

/-- The index is right, and every operation can serve the role. -/
structure Sound (r : Registry) : Prop where
  indexed : r.Indexed
  fit : ∀ op ∈ r.operations.toList, unfit? r.role op = none

/-- A new registry is sound. -/
theorem sound_empty (role : Role) : (empty role).Sound := ⟨indexed_empty role, by simp [empty]⟩

/-- A registration that succeeds keeps the registry sound. -/
theorem Sound.register (h : r.Sound) (hr : r.register op = .ok r') : r'.Sound := by
  refine ⟨h.indexed.register hr, ?_⟩
  obtain ⟨-, hfit, rfl⟩ := register_eq_ok_iff.1 hr
  intro op' hop'
  rw [Array.toList_push, List.mem_append, List.mem_singleton] at hop'
  rcases hop' with hop' | rfl
  · exact h.fit op' hop'
  · exact hfit

/-- A registry is sound after any registrations, refused ones included. -/
theorem sound_registerAll (role : Role) (ops : List Operation) :
    ((empty role).registerAll ops).Sound :=
  registerAll_induction (sound_empty role) (fun _ _ _ h hop => h.register hop) ops

/-- In a sound registry an operation is found by its name. -/
theorem Sound.get?_of_mem (h : r.Sound) (hop : op ∈ r.operations.toList) :
    r.get? op.name = some op :=
  h.indexed.get?_eq_some_iff.2 ⟨hop, rfl⟩

/-- A standard operation fits the role. -/
theorem Sound.accepts (h : r.Sound) {op : StandardOperation}
    (hop : .standard op ∈ r.operations.toList) : r.role.accepts op.signature = true :=
  unfit?_eq_none_iff.1 (h.fit _ hop)

end Registry

end RecordRules
