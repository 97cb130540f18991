import RecordRules.Proofs.RuleTable.History

/-!
# Edits that fail

An edit that fails leaves the table as it was, whatever table that is (`Editing.Atomic`).  Most of
them fail before they change anything.  Updating a filter puts the filter back if its new id is in
use, also where nodes are stored under other ids than their own.  So edits that fail can be left out
of a history (`tableHistory_succeeding`).
-/

namespace RecordRules

variable {α β γ : Type}

namespace Editing

/-- A failure leaves the table as it was. -/
def Atomic (x : Editing α β) : Prop := ∀ t err t', x t = .error err t' → t' = t

/-- What comes after the change must not fail. -/
theorem Atomic.bind {x : Editing α β} {f : β → Editing α γ} (hx : Atomic x)
    (hf : ∀ b t err t', f b t ≠ .error err t') : Atomic (x >>= f) := by
  intro t err t' h
  rw [bind_apply] at h
  cases hxt : x t with
  | ok b t₁ =>
    rw [hxt] at h
    exact absurd h (hf b t₁ err t')
  | error err₁ t₁ =>
    rw [hxt] at h
    cases h
    exact hx t _ _ hxt

end Editing

namespace RuleTable

open Editing

variable {id : String}

/-- Toggling looks at the entry before it writes. -/
theorem atomic_toggle : Atomic (toggle id : Editing α Connective) := by
  intro t err t' h
  rw [toggle_apply] at h
  split at h <;> cases h <;> rfl

/-- Removing looks at the entry and its parent before it writes. -/
theorem atomic_remove : Atomic (remove id : Editing α Nat) := by
  intro t err t' h
  rw [remove_apply] at h
  split at h
  · split at h <;> cases h
    rfl
  · cases h
    rfl

variable [Leaf α]

/-- Setting the inversion fails only on an id that is not there. -/
theorem atomic_setInvert {invert : Bool} : Atomic (setInvert id invert : Editing α Unit) := by
  intro t err t' h
  rw [setInvert_apply] at h
  split at h <;> cases h
  rfl

/-- Updating puts the filter back when it fails, so the entry that it wrote before does not show. -/
theorem atomic_update {edit : α → α} : Atomic (update id edit) := by
  intro t err t' h
  rw [update_apply] at h
  split at h
  · dsimp only at h
    split at h
    · cases h
    · split at h <;> cases h
      rfl
  · cases h
    rfl
  · cases h
    rfl

/-- Appending looks for ids in use before it writes. -/
theorem atomic_append {parent : String} {r : Rule α} : Atomic (append parent r) := by
  intro t err t' h
  rw [append_apply] at h
  split at h
  · split at h
    · split at h
      · cases h
        rfl
      · split at h <;> cases h
        rfl
    · cases h
      rfl
  · cases h
    rfl

end RuleTable

namespace RuleEdit

open RuleTable

variable [Leaf α]

/-- Every edit is atomic, with its answer. -/
theorem atomic_onTable (e : RuleEdit α) : Editing.Atomic e.onTable := by
  cases e with
  | append parent r => exact atomic_append.bind fun _ _ _ _ => nofun
  | remove id => exact atomic_remove.bind fun _ _ _ _ => nofun
  | toggle id => exact atomic_toggle.bind fun _ _ _ _ => nofun
  | setInvert id invert => exact atomic_setInvert.bind fun _ _ _ _ => nofun
  | update id f => exact atomic_update.bind fun _ _ _ _ => nofun

/-- The edits of a history that succeed. -/
def succeeding (t : RuleTable α) : List (RuleEdit α) → List (RuleEdit α)
  | [] => []
  | e :: es =>
    match e.onTable t with
    | .ok _ t' => e :: succeeding t' es
    | .error _ t' => succeeding t' es

/-- A history without the edits that fail. -/
theorem tableHistory_succeeding (t : RuleTable α) (es : List (RuleEdit α)) :
    tableHistory t (succeeding t es) = (tableHistory t es).filter fun x => x.1.isSome := by
  induction es generalizing t with
  | nil => rfl
  | cons e es ih =>
    cases he : e.onTable t with
    | ok answer t' => simp [succeeding, tableHistory, he, ih]
    | error err t' =>
      obtain rfl := e.atomic_onTable t err t' he
      simp [succeeding, tableHistory, he, ih]

/-- In any table, an edit that fails changes nothing, so it may as well not have been made. -/
theorem failed_edits_change_nothing (t : RuleTable α) :
    (∀ (e : RuleEdit α) err t', e.onTable t = .error err t' → t' = t) ∧
    ∀ es, tableHistory t (succeeding t es) = (tableHistory t es).filter fun x => x.1.isSome :=
  ⟨fun e => e.atomic_onTable t, tableHistory_succeeding t⟩

/-- A filter stored under the id of another one, below a parent that is not there, is to get an id
in use. -/
theorem failed_edits_change_nothing_misplaced :
    let t : RuleTable Draft :=
      .ofList [("a", .filter (.empty "b") "c"), ("d", .filter (.empty "a") "d")]
    let e : RuleEdit Draft := .update "a" fun _ => .empty "d"
    ∃ t', e.onTable t = .error (.duplicateId "d") t' ∧ t' = t := by
  intro t e
  have hget : t.get? "a" = some (.filter (.empty "b") "c") := by simp [t, KeyMap.ofList]
  have hused : (t.insert "a" (.filter (.empty "d") "c")).contains "d" = true := by
    simp [t, KeyMap.ofList, KeyMap.contains]
  have hid : Leaf.id (Draft.empty "d") = "d" := rfl
  have hfails : ∃ t', e.onTable t = .error (.duplicateId "d") t' :=
    ⟨t, by simp [e, onTable, update_apply, hget, hid, hused]⟩
  obtain ⟨t', ht'⟩ := hfails
  exact ⟨t', ht', (failed_edits_change_nothing t).1 e _ t' ht'⟩

end RuleEdit

end RecordRules
