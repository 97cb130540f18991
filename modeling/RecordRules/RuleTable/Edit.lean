import RecordRules.RuleTable.Tree

/-!
# Editing a rule table

Each edit changes the table in place and touches only the nodes that it is about.  An edit that
fails late has to undo what it did before.
-/

namespace RecordRules

/-- What changes a table or fails.  A failure does not take back the changes before it. -/
abbrev Editing (α : Type) : Type → Type := EStateM TableError (RuleTable α)

namespace Editing

variable {α β γ : Type}

@[simp] theorem bind_apply (x : Editing α β) (f : β → Editing α γ) (t : RuleTable α) :
    (x >>= f) t =
      match x t with
      | .ok b t => f b t
      | .error err t => .error err t := by
  show EStateM.bind x f t = _
  unfold EStateM.bind
  cases x t <;> rfl

@[simp] theorem map_apply (f : β → γ) (x : Editing α β) (t : RuleTable α) :
    (f <$> x) t =
      match x t with
      | .ok b t => .ok (f b) t
      | .error err t => .error err t := by
  show EStateM.map f x t = _
  unfold EStateM.map
  cases x t <;> rfl

@[simp] theorem pure_apply (b : β) (t : RuleTable α) : (pure b : Editing α β) t = .ok b t := rfl

@[simp] theorem throw_apply (err : TableError) (t : RuleTable α) :
    (throw err : Editing α β) t = .error err t := rfl

@[simp] theorem get_apply (t : RuleTable α) : (get : Editing α (RuleTable α)) t = .ok t t := rfl

@[simp] theorem modify_apply (f : RuleTable α → RuleTable α) (t : RuleTable α) :
    (modify f : Editing α PUnit) t = .ok () (f t) := rfl

@[simp] theorem modifyGet_apply (f : RuleTable α → β × RuleTable α) (t : RuleTable α) :
    (modifyGet f : Editing α β) t = .ok (f t).1 (f t).2 := rfl

end Editing

namespace RuleTable

variable {α : Type}

/-- The node under an id, to be changed. -/
def entryAt (id : String) : Editing α (Entry α) := do
  match (← get).get? id with
  | some e => return e
  | none => throw (.unknownId id)

/-- Flip a group between `and` and `or`; tells the new connective. -/
def toggle (id : String) : Editing α Connective := do
  match ← entryAt id with
  | .filter .. => throw (.notAGroup id)
  | .group own op invert conditions parent =>
    modify (·.insert id (.group own op.toggle invert conditions parent))
    return op.toggle

/-- Invert the result of a node, or not. -/
def setInvert [Leaf α] (id : String) (invert : Bool) : Editing α Unit := do
  match ← entryAt id with
  | .filter data parent => modify (·.insert id (.filter (Leaf.setInvert invert data) parent))
  | .group own op _ conditions parent =>
    modify (·.insert id (.group own op invert conditions parent))

/-- Move a filter to a new id.  If it is its own parent it stays so; otherwise its parent lists
the new id in place of the old one. -/
def rename (t : RuleTable α) (id new : String) (data : α) (parent : String) : RuleTable α :=
  let rest := t.erase id
  if parent = id then rest.insert new (.filter data new)
  else
    (rest.modify parent (·.mapConditions (·.map fun c => if c = id then new else c))).insert new
      (.filter data parent)

/-- Change a single filter, and its id along with it.  If the new id is taken, the filter is put
back. -/
def update [Leaf α] (id : String) (edit : α → α) : Editing α Unit := do
  match ← entryAt id with
  | .group .. => throw (.notAGroup id)
  | .filter before parent =>
    let data := edit before
    let new := Leaf.id data
    modify (·.insert id (.filter data parent))
    if new ≠ id then
      if (← get).contains new then
        modify (·.insert id (.filter before parent))
        throw (.duplicateId new)
      modify (·.rename id new data parent)

/-- Take nodes out of the table, and the conditions of each that is there, the last of them
first; also tells how many went. -/
def sweep (t : RuleTable α) (removed : Nat) : List String → Nat × RuleTable α
  | [] => (removed, t)
  | id :: rest =>
    match _h : t.get? id with
    | some e => sweep (t.erase id) (removed + 1) (e.conditions.reverse ++ rest)
    | none => sweep t removed rest
termination_by ids => (t.size, ids.length)
decreasing_by
  · exact Prod.Lex.left _ _ (KeyMap.size_erase_lt _h)
  · exact Prod.Lex.right _ (by simp)

@[simp] theorem sweep_nil (t : RuleTable α) (removed : Nat) :
    t.sweep removed [] = (removed, t) := by
  rw [sweep]

/-- A sweep drops the entry of its first id, if there is one, and visits the conditions of that
entry next, the last of them first. -/
theorem sweep_cons (t : RuleTable α) (removed : Nat) (id : String) (rest : List String) :
    t.sweep removed (id :: rest) =
      match t.get? id with
      | some e => sweep (t.erase id) (removed + 1) (e.conditions.reverse ++ rest)
      | none => t.sweep removed rest := by
  rw [sweep]
  split <;> simp_all

/-- Remove a node with everything below it, and from the conditions of its parent; tells how
many nodes went. -/
def remove (id : String) : Editing α Nat := do
  let e ← entryAt id
  if e.parent = id then throw (.removeRoot id)
  modify (·.modify e.parent (·.mapConditions (·.filter (· ≠ id))))
  modifyGet (·.sweep 0 [id])

/-- Attach a tree as the last condition of a group.  Its ids have to be new. -/
def append [Leaf α] (parent : String) (r : Rule α) : Editing α Unit := do
  if !(← entryAt parent).isGroup then throw (.notAGroup parent)
  let below ← MonadExcept.ofExcept (ofTreeUnder r parent)
  match below.keys.find? (← get).contains with
  | some id => throw (.duplicateId id)
  | none =>
    modify (·.modify parent (·.mapConditions (· ++ [r.id])))
    modify (·.union below)

/-! ## What an edit does -/

/-- Looking up an entry fails on an unknown id and never changes the table. -/
theorem entryAt_apply (id : String) (t : RuleTable α) :
    entryAt id t =
      match t.get? id with
      | some e => .ok e t
      | none => .error (.unknownId id) t := by
  cases h : t.get? id <;> simp [entryAt, h]

/-- Toggling fails on an unknown id and on a leaf, and writes a single entry otherwise. -/
theorem toggle_apply (id : String) (t : RuleTable α) :
    toggle id t =
      match t.get? id with
      | some (.group own op invert conditions parent) =>
        .ok op.toggle (t.insert id (.group own op.toggle invert conditions parent))
      | some (.filter ..) => .error (.notAGroup id) t
      | none => .error (.unknownId id) t := by
  rcases h : t.get? id with _ | _ | _ <;> simp [toggle, entryAt_apply, h]

/-- Setting the inversion fails on an unknown id, and writes a single entry otherwise. -/
theorem setInvert_apply [Leaf α] (id : String) (invert : Bool) (t : RuleTable α) :
    setInvert id invert t =
      match t.get? id with
      | some (.filter data parent) =>
        .ok () (t.insert id (.filter (Leaf.setInvert invert data) parent))
      | some (.group own op _ conditions parent) =>
        .ok () (t.insert id (.group own op invert conditions parent))
      | none => .error (.unknownId id) t := by
  rcases h : t.get? id with _ | _ | _ <;> simp [setInvert, entryAt_apply, h]

/-- If the new id is taken, the table is the one before. -/
theorem update_apply [Leaf α] (id : String) (edit : α → α) (t : RuleTable α) :
    update id edit t =
      match t.get? id with
      | some (.filter data parent) =>
        let t' : RuleTable α := t.insert id (.filter (edit data) parent)
        if Leaf.id (edit data) = id then .ok () t'
        else if t'.contains (Leaf.id (edit data)) then
          .error (.duplicateId (Leaf.id (edit data))) t
        else .ok () (t'.rename id (Leaf.id (edit data)) (edit data) parent)
      | some (.group ..) => .error (.notAGroup id) t
      | none => .error (.unknownId id) t := by
  rcases h : t.get? id with _ | ⟨data, parent⟩ | _
  · simp [update, entryAt_apply, h]
  · by_cases hid : Leaf.id (edit data) = id
    · simp [update, entryAt_apply, h, hid]
    · have hback : (t.insert id (.filter (edit data) parent)).insert id (.filter data parent) =
          t := by
        rw [KeyMap.insert_insert, KeyMap.insert_eq_self h]
      cases hin : (t.insert id (.filter (edit data) parent)).contains (Leaf.id (edit data)) <;>
        simp [update, entryAt_apply, h, hid, hin, hback]
  · simp [update, entryAt_apply, h]

/-- Removing fails on an unknown id and on a node that is its own parent.  Otherwise the id is
struck from the conditions of the parent before the sweep. -/
theorem remove_apply (id : String) (t : RuleTable α) :
    remove id t =
      match t.get? id with
      | some e =>
        if e.parent = id then .error (.removeRoot id) t
        else
          let t' : RuleTable α := t.modify e.parent (·.mapConditions (·.filter (· ≠ id)))
          .ok (t'.sweep 0 [id]).1 (t'.sweep 0 [id]).2
      | none => .error (.unknownId id) t := by
  rcases h : t.get? id with _ | e
  · simp [remove, entryAt_apply, h]
  · by_cases hparent : e.parent = id <;> simp [remove, entryAt_apply, h, hparent]

/-- Appending fails on an unknown parent and on a leaf, on a tree that repeats an id and on an id
that is taken.  Otherwise the id of the tree goes last among the conditions of the parent. -/
theorem append_apply [Leaf α] (parent : String) (r : Rule α) (t : RuleTable α) :
    append parent r t =
      match t.get? parent with
      | some e =>
        if e.isGroup then
          match ofTreeUnder r parent with
          | .error err => .error err t
          | .ok below =>
            match below.keys.find? t.contains with
            | some id => .error (.duplicateId id) t
            | none => .ok () ((t.modify parent (·.mapConditions (· ++ [r.id]))).union below)
        else .error (.notAGroup parent) t
      | none => .error (.unknownId parent) t := by
  rcases h : t.get? parent with _ | e
  · simp [append, entryAt_apply, h]
  · cases hgroup : e.isGroup
    · simp [append, entryAt_apply, h, hgroup]
    · rcases hbelow : ofTreeUnder r parent with err | below
      · simp [append, entryAt_apply, h, hgroup, hbelow, ofExcept]
      · cases hfind : below.keys.find? t.contains <;>
          simp [append, entryAt_apply, h, hgroup, hbelow, hfind, ofExcept]

end RuleTable

end RecordRules
