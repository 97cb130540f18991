import Mathlib.Data.List.Nodup
import RecordRules.Proofs.Outcome
import RecordRules.Proofs.StableOrder

/-!
# Sorting keeps the elements

Nothing is known of the comparison here: it may fail, and its answers need not agree with each
other.  Merging runs then still leaves all elements where each of them is found once, or it fails
with what the comparison of two of them failed with (`sort_arranges`).
-/

namespace RecordRules.StableOrder

variable {α ε : Type} {cmp : α → α → Except ε Ordering}

/-- What may come of sorting a list: its elements in some order, or the failure of comparing two
of them that stand at different places. -/
inductive Arranges (cmp : α → α → Except ε Ordering) (l : List α) : Except ε (List α) → Prop where
  | ok {l' : List α} : l'.Perm l → Arranges cmp l (.ok l')
  | error {a b : α} {e : ε} : [a, b].Subperm l → cmp a b = .error e → Arranges cmp l (.error e)

namespace Arranges

variable {l l' : List α} {x y : Except ε (List α)}

/-- A result that succeeds has the elements of the list. -/
theorem perm_of_eq_ok (h : Arranges cmp l x) (hx : x = .ok l') : l'.Perm l := by
  cases h with
  | ok hperm =>
    obtain rfl := Except.ok.inj hx
    exact hperm
  | error => cases hx

/-- A failure is that of comparing two elements of the list. -/
theorem exists_of_eq_error {e : ε} (h : Arranges cmp l x) (hx : x = .error e) :
    ∃ a b, [a, b].Subperm l ∧ cmp a b = .error e := by
  cases h with
  | ok => cases hx
  | error hab he =>
    obtain rfl := Except.error.inj hx
    exact ⟨_, _, hab, he⟩

/-- What may come of a list may come of any other order of it. -/
theorem trans_perm (h : Arranges cmp l x) (hl : l.Perm l') : Arranges cmp l' x := by
  cases h with
  | ok hperm => exact .ok (hperm.trans hl)
  | error hab he => exact .error (hab.trans hl.subperm) he

/-- An element put in front of the result is one put in front of the list. -/
theorem cons (a : α) (h : Arranges cmp l x) : Arranges cmp (a :: l) (x.map (a :: ·)) := by
  cases h with
  | ok hperm => exact .ok (hperm.cons a)
  | error hab he => exact .error (hab.trans (List.sublist_cons_self a l).subperm) he

/-- Two lists are sorted one after the other, and the second only if the first succeeds. -/
theorem append (hx : Arranges cmp l x) (hy : Arranges cmp l' y) :
    Arranges cmp (l ++ l') (x.bind fun u => y.map (u ++ ·)) := by
  cases hx with
  | error hab he => exact .error (hab.trans (List.sublist_append_left l l').subperm) he
  | ok hperm =>
    cases hy with
    | error hab he => exact .error (hab.trans (List.sublist_append_right l l').subperm) he
    | ok hperm' => exact .ok (hperm.append hperm')

end Arranges

/-- A merge arranges the elements of both runs.  By induction on the two, as in the merge: each step
compares their first elements and puts one of them in front. -/
theorem merge_arranges (left right : List α) :
    Arranges cmp (left ++ right) (merge cmp left right) := by
  induction left generalizing right with
  | nil => exact .ok (.refl right)
  | cons a left ihl =>
    induction right with
    | nil =>
      rw [merge_nil_right, List.append_nil]
      exact .ok (.refl _)
    | cons b right ihr =>
      rw [merge_cons_cons]
      cases hba : cmp b a with
      | error e =>
        have hab : [a, b].Sublist (a :: left ++ b :: right) := .cons_cons a (by simp)
        exact .error ((List.Perm.swap a b []).subperm.trans hab.subperm) hba
      | ok o =>
        have hright : Arranges cmp (a :: left ++ b :: right)
            ((merge cmp (a :: left) right).map (b :: ·)) :=
          (ihr.cons b).trans_perm List.perm_middle.symm
        have hleft := (ihl (b :: right)).cons a
        cases o with
        | lt => exact hright
        | eq | gt => exact hleft

/-- A merge has the elements of both runs. -/
theorem perm_of_merge_eq_ok {left right merged : List α} (h : merge cmp left right = .ok merged) :
    merged.Perm (left ++ right) :=
  (merge_arranges left right).perm_of_eq_ok h

/-- A pass arranges the elements of all its runs. -/
theorem pass_arranges : (runs : List (List α)) →
    Arranges cmp runs.flatten ((pass cmp runs).map List.flatten)
  | left :: right :: rest => by
    have h : Arranges cmp _ _ := (merge_arranges left right).append (pass_arranges rest)
    rw [List.flatten_cons, List.flatten_cons, ← List.append_assoc, pass]
    cases hmerge : merge cmp left right with
    | error e => rwa [hmerge] at h
    | ok merged =>
      rw [hmerge] at h
      cases hpass : pass cmp rest with
      | error e => rwa [hpass] at h
      | ok joined => rwa [hpass] at h
  | [run] => .ok (.refl _)
  | [] => .ok (.refl _)

/-- A pass has the elements of all its runs. -/
theorem perm_of_pass_eq_ok {runs joined : List (List α)} (h : pass cmp runs = .ok joined) :
    joined.flatten.Perm runs.flatten :=
  (pass_arranges runs).perm_of_eq_ok (map_eq_ok_iff.2 ⟨joined, h, rfl⟩)

/-- So do any number of passes: a failure of a later one is one of elements of the first runs. -/
theorem passes_arranges (n : Nat) (runs : List (List α)) :
    Arranges cmp runs.flatten ((passes cmp n runs).map List.flatten) := by
  induction n generalizing runs with
  | zero => exact .ok (.refl _)
  | succ n ih =>
    rw [passes]
    cases hpass : pass cmp runs with
    | error e =>
      have h : Arranges cmp _ _ := pass_arranges runs
      rwa [hpass] at h
    | ok joined => exact (ih joined).trans_perm (perm_of_pass_eq_ok hpass)

/-- Whatever the comparison, sorting neither loses nor doubles an element, and only the comparison
of two elements makes it fail. -/
theorem sort_arranges (l : List α) : Arranges cmp l (sort cmp l) := by
  have h : Arranges cmp _ (sort cmp l) := passes_arranges l.length (l.map ([·]))
  have hflatten : (l.map ([·])).flatten = l := l.flatMap_singleton'
  rwa [hflatten] at h

end RecordRules.StableOrder
