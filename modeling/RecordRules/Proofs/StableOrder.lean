import Mathlib.Data.List.FinRange
import Mathlib.Data.List.Sort
import RecordRules.Proofs.Outcome
import RecordRules.StableOrder

/-!
# Merging runs sorts stably

Where comparisons succeed and are those of a total preorder, two lists sorted by insertion merge to
the insertion sort of both (`merge_insertionSort`).  So each run stays the insertion sort of the
part of the list that it came from, and the last one is that of the whole list
(`Lawful.sort_eq_insertionSort`), in which elements that tie keep their order
(`isStableSort_insertionSort`).
-/

namespace RecordRules.StableOrder

variable {α β ε : Type}

/-! ## One merge -/

section

variable (cmp : α → α → Except ε Ordering)

@[simp] theorem merge_nil_left (right : List α) : merge cmp [] right = .ok right := rfl

@[simp] theorem merge_nil_right (left : List α) : merge cmp left [] = .ok left := by
  cases left <;> rfl

/-- Two runs are merged by their first elements, of which the left one goes first unless the right
one is less. -/
theorem merge_cons_cons (a b : α) (left right : List α) :
    merge cmp (a :: left) (b :: right) = (cmp b a).bind fun
      | .lt => (merge cmp (a :: left) right).map (b :: ·)
      | _ => (merge cmp left (b :: right)).map (a :: ·) := by
  show (cmp b a >>= _) = _
  cases cmp b a with
  | error e => rfl
  | ok o => cases o <;> rfl

end

/-! ## Passes -/

section

variable {cmp : α → α → Except ε Ordering} {left right : List α} {rest runs joined : List (List α)}

/-- A pass succeeds when its first two runs merge and the pass over the rest succeeds. -/
theorem pass_eq_ok_iff : pass cmp (left :: right :: rest) = .ok joined ↔
    ∃ merged others, merge cmp left right = .ok merged ∧ pass cmp rest = .ok others ∧
      merged :: others = joined := by
  rw [pass]
  simp only [bind_eq_ok_iff, pure_eq_ok_iff]
  constructor
  · rintro ⟨merged, hmerged, others, hothers, h⟩
    exact ⟨merged, others, hmerged, hothers, h⟩
  · rintro ⟨merged, others, hmerged, hothers, h⟩
    exact ⟨merged, hmerged, others, hothers, h⟩

/-- Passes are made one after the other. -/
theorem passes_eq_ok_iff {n : Nat} {whole : List (List α)} :
    passes cmp (n + 1) runs = .ok whole ↔
      ∃ joined, pass cmp runs = .ok joined ∧ passes cmp n joined = .ok whole := by
  rw [passes]
  exact bind_eq_ok_iff

/-- A pass halves the number of runs. -/
theorem length_of_pass_eq_ok : {runs joined : List (List α)} → pass cmp runs = .ok joined →
    2 * joined.length ≤ runs.length + 1
  | _ :: _ :: rest, joined, h => by
    obtain ⟨merged, others, -, hothers, rfl⟩ := pass_eq_ok_iff.1 h
    have hrest := length_of_pass_eq_ok hothers
    simp only [List.length_cons]
    omega
  | [_], joined, h => by
    obtain rfl := Except.ok.inj h
    exact le_rfl
  | [], joined, h => by
    obtain rfl := Except.ok.inj h
    exact Nat.zero_le _

end

/-! ## Other names for the elements -/

section

variable (cmp : β → β → Except ε Ordering) (f : α → β)

/-- Merging mapped lists is mapping what merges, by the comparison of the images. -/
theorem merge_map (left right : List α) :
    merge cmp (left.map f) (right.map f) =
      (merge (fun a b => cmp (f a) (f b)) left right).map (·.map f) := by
  induction left generalizing right with
  | nil => rfl
  | cons a left ihl =>
    induction right with
    | nil => rfl
    | cons b right ihr =>
      simp only [List.map_cons] at ihl ihr ⊢
      rw [merge_cons_cons, merge_cons_cons]
      cases cmp (f b) (f a) with
      | error e => rfl
      | ok o =>
        have hl := ihl (b :: right)
        rw [List.map_cons] at hl
        simp only [Except.bind]
        rw [ihr, hl]
        cases o with
        | lt => cases merge (fun a b => cmp (f a) (f b)) (a :: left) right <;> rfl
        | eq => cases merge (fun a b => cmp (f a) (f b)) left (b :: right) <;> rfl
        | gt => cases merge (fun a b => cmp (f a) (f b)) left (b :: right) <;> rfl

/-- A pass over mapped runs is the mapped pass over the runs. -/
theorem pass_map : (runs : List (List α)) →
    pass cmp (runs.map (·.map f)) =
      (pass (fun a b => cmp (f a) (f b)) runs).map (·.map (·.map f))
  | left :: right :: rest => by
    simp only [List.map_cons, pass, merge_map, pass_map rest]
    cases merge (fun a b => cmp (f a) (f b)) left right with
    | error e => rfl
    | ok merged => cases pass (fun a b => cmp (f a) (f b)) rest <;> rfl
  | [_] => rfl
  | [] => rfl

/-- Passes over mapped runs are the mapped passes over the runs. -/
theorem passes_map (n : Nat) (runs : List (List α)) :
    passes cmp n (runs.map (·.map f)) =
      (passes (fun a b => cmp (f a) (f b)) n runs).map (·.map (·.map f)) := by
  induction n generalizing runs with
  | zero => rfl
  | succ n ih =>
    rw [passes, passes, pass_map]
    cases pass (fun a b => cmp (f a) (f b)) runs with
    | error e => rfl
    | ok merged => exact ih merged

/-- Sorting the images of a list is sorting the list by its images. -/
theorem sort_map (l : List α) :
    sort cmp (l.map f) = (sort (fun a b => cmp (f a) (f b)) l).map (·.map f) := by
  have hruns : (l.map f).map ([·]) = (l.map ([·])).map (·.map f) := by simp
  rw [sort, sort, hruns, passes_map, List.length_map]
  cases passes (fun a b => cmp (f a) (f b)) l.length (l.map ([·])) with
  | error e => rfl
  | ok runs => simp [Except.map, List.map_flatten]

end

/-! ## Comparisons that succeed -/

section

variable (o : α → α → Ordering)

/-- No later in the order. -/
def NoLater (a b : α) : Prop := (o a b).isLE = true

instance : DecidableRel (NoLater o) := fun a b => inferInstanceAs (Decidable ((o a b).isLE = true))

variable {o} {cmp : α → α → Except ε Ordering} [Std.TransCmp o]

instance : IsTrans α (NoLater o) where
  trans _ _ _ := Std.TransCmp.isLE_trans

instance : Std.Total (NoLater o) where
  total a b := by
    have hswap : o b a = (o a b).swap := Std.OrientedCmp.eq_swap
    rw [NoLater, NoLater, hswap]
    cases o a b <;> simp

/-- The order is total. -/
theorem noLater_of_not {a b : α} (h : ¬ NoLater o a b) : NoLater o b a :=
  (Std.Total.total a b).resolve_left h

/-- Where comparisons succeed, the merge is that of lists with the right one going first only if it
is less. -/
theorem merge_eq_ok (h : ∀ a b, cmp a b = .ok (o a b)) (left right : List α) :
    merge cmp left right = .ok (left.merge right fun a b => decide (NoLater o a b)) := by
  induction left generalizing right with
  | nil => simp
  | cons a left ihl =>
    induction right with
    | nil => simp
    | cons b right ihr =>
      rw [merge_cons_cons, h, ihr, ihl, List.cons_merge_cons]
      have hswap : o a b = (o b a).swap := Std.OrientedCmp.eq_swap
      cases hba : o b a <;> simp [NoLater, hswap, hba, Except.bind, Except.map]

/-! ## Insertion -/

/-- To insert an element into the left run is to insert it into the merge: it goes before the
first element that it may precede, and one of the right run that comes earlier goes first in
both. -/
theorem merge_orderedInsert (x : α) (left right : List α) :
    (left.orderedInsert (NoLater o) x).merge right (fun a b => decide (NoLater o a b)) =
      (left.merge right fun a b => decide (NoLater o a b)).orderedInsert (NoLater o) x := by
  induction left generalizing right with
  | nil =>
    induction right with
    | nil => simp
    | cons b right ihr =>
      rw [List.orderedInsert_nil] at ihr ⊢
      rw [List.cons_merge_cons, List.nil_merge, ihr, List.nil_merge]
      simp
  | cons a left ihl =>
    induction right with
    | nil => simp
    | cons b right ihr =>
      rw [List.cons_merge_cons]
      -- the new element goes before the first of the left run, or the merge goes on without it
      by_cases hxa : NoLater o x a
      · rw [List.orderedInsert_cons_of_le _ _ hxa] at ihr ⊢
        rw [List.cons_merge_cons, List.cons_merge_cons, ihr]
        by_cases hab : NoLater o a b
        · have hxb : NoLater o x b := trans_of (NoLater o) hxa hab
          simp [hab, hxb, hxa]
        · by_cases hxb : NoLater o x b <;> simp [hab, hxb]
      · have hax := noLater_of_not hxa
        rw [List.orderedInsert_of_not_le _ _ hxa] at ihr ⊢
        rw [List.cons_merge_cons, ihl, ihr]
        by_cases hab : NoLater o a b
        · simp [hab, hxa]
        · have hxb : ¬ NoLater o x b := fun hxb => hab (trans_of (NoLater o) hax hxb)
          simp [hab, hxb]

/-- Two lists sorted by insertion merge to the insertion sort of one after the other. -/
theorem merge_insertionSort (xs ys : List α) :
    (xs.insertionSort (NoLater o)).merge (ys.insertionSort (NoLater o))
        (fun a b => decide (NoLater o a b)) =
      (xs ++ ys).insertionSort (NoLater o) := by
  induction xs with
  | nil => simp
  | cons x xs ih =>
    rw [List.insertionSort_cons, merge_orderedInsert, ih, List.cons_append,
      List.insertionSort_cons]

/-! ## All passes

The runs before a pass are the parts of the list, each sorted by insertion; those after it are
parts twice as long. -/

/-- Runs that are sorted by insertion stay so after a pass, and come from the same list. -/
theorem exists_pass (h : ∀ a b, cmp a b = .ok (o a b)) : (parts : List (List α)) →
    ∃ joined : List (List α), pass cmp (parts.map (List.insertionSort (NoLater o))) =
        .ok (joined.map (List.insertionSort (NoLater o))) ∧ joined.flatten = parts.flatten
  | left :: right :: rest => by
    obtain ⟨joined, hpass, hflatten⟩ := exists_pass h rest
    refine ⟨(left ++ right) :: joined, ?_, by simp [hflatten]⟩
    simp only [List.map_cons, pass, merge_eq_ok h, merge_insertionSort, hpass]
    rfl
  | [part] => ⟨[part], rfl, rfl⟩
  | [] => ⟨[], rfl, rfl⟩

/-- After enough passes no more than one run is left. -/
theorem exists_passes (h : ∀ a b, cmp a b = .ok (o a b)) {n : Nat} {parts : List (List α)}
    (hn : parts.length ≤ n + 1) :
    ∃ joined : List (List α), passes cmp n (parts.map (List.insertionSort (NoLater o))) =
        .ok (joined.map (List.insertionSort (NoLater o))) ∧
      joined.flatten = parts.flatten ∧ joined.length ≤ 1 := by
  induction n generalizing parts with
  | zero => exact ⟨parts, rfl, rfl, hn⟩
  | succ n ih =>
    obtain ⟨joined, hpass, hflatten⟩ := exists_pass h parts
    have hhalved := length_of_pass_eq_ok hpass
    rw [List.length_map, List.length_map] at hhalved
    obtain ⟨whole, hpasses, hwhole, hone⟩ := @ih joined (by omega)
    exact ⟨whole, passes_eq_ok_iff.2 ⟨_, hpass, hpasses⟩, hwhole.trans hflatten, hone⟩

/-- Where comparisons succeed and are those of a total preorder, sorting is insertion sort. -/
theorem sort_eq_ok (h : ∀ a b, cmp a b = .ok (o a b)) (l : List α) :
    sort cmp l = .ok (l.insertionSort (NoLater o)) := by
  have hruns : l.map ([·]) = (l.map ([·])).map (List.insertionSort (NoLater o)) := by simp
  obtain ⟨whole, hpasses, hflatten, hone⟩ :=
    exists_passes h (show (l.map ([·])).length ≤ l.length + 1 by simp)
  have hwhole : whole.flatten = l := hflatten.trans l.flatMap_singleton'
  rw [sort, hruns, hpasses, ← hwhole]
  cases whole with
  | nil => rfl
  | cons part rest =>
    obtain rfl : rest = [] := by simpa using hone
    simp [Except.map]

/-! ## Ties -/

/-- An element that stands before all others of a sorted list is inserted behind none that it
ties with. -/
theorem pairwise_orderedInsert_ties {before : α → α → Prop} {x : α} {l : List α}
    (hl : l.Pairwise fun a b => o a b = .eq → before a b) (hx : ∀ b ∈ l, before x b) :
    (l.orderedInsert (NoLater o) x).Pairwise fun a b => o a b = .eq → before a b := by
  induction l with
  | nil => simp
  | cons b l ih =>
    obtain ⟨hb, hl⟩ := List.pairwise_cons.1 hl
    obtain ⟨hxb, hxl⟩ := List.forall_mem_cons.1 hx
    by_cases h : NoLater o x b
    · rw [List.orderedInsert_cons_of_le _ _ h]
      exact .cons (fun c hc _ => hx c hc) (.cons hb hl)
    · rw [List.orderedInsert_of_not_le _ _ h]
      refine .cons (fun c hc htie => ?_) (ih hl hxl)
      rcases (List.mem_orderedInsert _).1 hc with rfl | hc
      · have hswap : o c b = (o b c).swap := Std.OrientedCmp.eq_swap
        refine absurd ?_ h
        rw [NoLater, hswap, htie]
        rfl
      · exact hb c hc htie

/-- Elements that tie stay as they were. -/
theorem pairwise_insertionSort_ties {before : α → α → Prop} {l : List α}
    (hl : l.Pairwise before) :
    (l.insertionSort (NoLater o)).Pairwise fun a b => o a b = .eq → before a b := by
  induction hl with
  | nil => exact .nil
  | cons hx _ ih =>
    rw [List.insertionSort_cons]
    refine pairwise_orderedInsert_ties ih fun b hb => hx b ?_
    exact (List.mem_insertionSort _).1 hb

end

/-! ## The elements of a list -/

/-- Comparisons of elements of the list succeed, and they are those of a total preorder. -/
structure Lawful (cmp : α → α → Except ε Ordering) (l : List α) : Prop where
  succeeds : ∀ a ∈ l, ∀ b ∈ l, ∃ o, cmp a b = .ok o
  swap : ∀ a ∈ l, ∀ b ∈ l, ∀ o, cmp a b = .ok o → cmp b a = .ok o.swap
  trans : ∀ a ∈ l, ∀ b ∈ l, ∀ c ∈ l, cmp a b ≠ .ok .gt → cmp b c ≠ .ok .gt → cmp a c ≠ .ok .gt

/-- The outcome of a comparison; one that fails counts as a tie. -/
def outcome (cmp : α → α → Except ε Ordering) (a b : α) : Ordering :=
  match cmp a b with
  | .ok o => o
  | .error _ => .eq

/-- The outcome for the elements at two positions. -/
def outcomeAt (cmp : α → α → Except ε Ordering) (l : List α) (i j : Fin l.length) : Ordering :=
  outcome cmp (l.get i) (l.get j)

/-- A list in ascending order, in which elements that tie stand as in `l`.  The relation
`compares` tells how two elements compare. -/
structure IsStableSort (compares : α → α → Ordering → Prop) (l sorted : List α) : Prop where
  perm : sorted.Perm l
  ascending : sorted.Pairwise fun a b => ¬ compares b a .lt
  stable : ∃ positions : List (Fin l.length), positions.Perm (List.finRange l.length) ∧
    sorted = positions.map l.get ∧
    positions.Pairwise fun i j => compares (l.get i) (l.get j) .eq → i < j

section

variable {cmp : α → α → Except ε Ordering} {l : List α}

/-- Only how the elements of the list compare counts. -/
theorem IsStableSort.congr {compares compares' : α → α → Ordering → Prop} {sorted : List α}
    (h : IsStableSort compares l sorted)
    (hcompares : ∀ a ∈ l, ∀ b ∈ l, ∀ o, compares a b o ↔ compares' a b o) :
    IsStableSort compares' l sorted := by
  obtain ⟨positions, hperm, hsorted, hties⟩ := h.stable
  refine ⟨h.perm, ?_, positions, hperm, hsorted, hties.imp fun {i j} hij => ?_⟩
  · refine h.ascending.imp_of_mem fun ha hb hba => ?_
    rwa [← hcompares _ (h.perm.mem_iff.1 hb) _ (h.perm.mem_iff.1 ha)]
  · rwa [← hcompares _ (l.get_mem i) _ (l.get_mem j)]

/-- A comparison that succeeds has its own outcome. -/
theorem outcome_of_eq {a b : α} {o : Ordering} (h : cmp a b = .ok o) : outcome cmp a b = o := by
  rw [outcome, h]

namespace Lawful

/-- Comparisons of elements of the list have the outcome they are said to have. -/
theorem eq_outcome (h : Lawful cmp l) {a b : α} (ha : a ∈ l) (hb : b ∈ l) :
    cmp a b = .ok (outcome cmp a b) := by
  obtain ⟨o, ho⟩ := h.succeeds a ha b hb
  rw [ho, outcome_of_eq ho]

/-- The order among the elements is the one in which comparisons tell. -/
theorem noLater_iff (h : Lawful cmp l) {a b : α} (ha : a ∈ l) (hb : b ∈ l) :
    NoLater (outcome cmp) a b ↔ cmp a b ≠ .ok .gt := by
  rw [NoLater, h.eq_outcome ha hb]
  cases outcome cmp a b <;> simp

/-- By position the comparisons are those of a total preorder on all positions, whatever they do
elsewhere. -/
theorem transCmp (h : Lawful cmp l) : Std.TransCmp (outcomeAt cmp l) where
  eq_swap {i j} := by
    have hj := h.eq_outcome (l.get_mem j) (l.get_mem i)
    exact outcome_of_eq (h.swap _ (l.get_mem j) _ (l.get_mem i) _ hj)
  isLE_trans {i j k} hij hjk := by
    have hi := l.get_mem i
    have hj := l.get_mem j
    have hk := l.get_mem k
    exact (h.noLater_iff hi hk).2
      (h.trans _ hi _ hj _ hk ((h.noLater_iff hi hj).1 hij) ((h.noLater_iff hj hk).1 hjk))

/-- Two outcomes that are the same make a third one, ties as well. -/
theorem trans_eq_ok (h : Lawful cmp l) {a b c : α} (ha : a ∈ l) (hb : b ∈ l) (hc : c ∈ l)
    {o : Ordering} (hab : cmp a b = .ok o) (hbc : cmp b c = .ok o) : cmp a c = .ok o := by
  have := h.transCmp
  obtain ⟨i, rfl⟩ := List.get_of_mem ha
  obtain ⟨j, rfl⟩ := List.get_of_mem hb
  obtain ⟨k, rfl⟩ := List.get_of_mem hc
  have hij : outcomeAt cmp l i j = o := outcome_of_eq hab
  have hjk : outcomeAt cmp l j k = o := outcome_of_eq hbc
  have hik : outcomeAt cmp l i k = o := by
    cases o with
    | lt => exact Std.TransCmp.lt_trans hij hjk
    | eq => exact Std.TransCmp.eq_trans hij hjk
    | gt => exact Std.TransCmp.gt_trans hij hjk
  rw [h.eq_outcome ha hc]
  exact congrArg _ hik

/-- Sorting a list is sorting its positions. -/
theorem map_get_insertionSort (cmp : α → α → Except ε Ordering) (l : List α) :
    ((List.finRange l.length).insertionSort (NoLater (outcomeAt cmp l))).map l.get =
      l.insertionSort (NoLater (outcome cmp)) := by
  have hmap := List.map_insertionSort (NoLater (outcomeAt cmp l)) (NoLater (outcome cmp)) l.get
    (List.finRange l.length) fun _ _ _ _ => Iff.rfl
  rw [hmap, List.map_get_finRange]

/-- Sorting is insertion sort when the comparison is lawful on the list.  The detour over positions
makes the comparison lawful everywhere. -/
theorem sort_eq_insertionSort (h : Lawful cmp l) :
    sort cmp l = .ok (l.insertionSort (NoLater (outcome cmp))) := by
  have := h.transCmp
  have hcmp : ∀ i j : Fin l.length, cmp (l.get i) (l.get j) = .ok (outcomeAt cmp l i j) :=
    fun i j => h.eq_outcome (l.get_mem i) (l.get_mem j)
  calc sort cmp l = sort cmp ((List.finRange l.length).map l.get) := by rw [List.map_get_finRange]
    _ = (sort (fun i j => cmp (l.get i) (l.get j)) (List.finRange l.length)).map (·.map l.get) :=
      sort_map cmp l.get _
    _ = .ok (l.insertionSort (NoLater (outcome cmp))) := by
      rw [sort_eq_ok hcmp, ← map_get_insertionSort]
      rfl

/-- Insertion sort is stable. -/
theorem isStableSort_insertionSort (h : Lawful cmp l) :
    IsStableSort (fun a b o => cmp a b = .ok o) l (l.insertionSort (NoLater (outcome cmp))) := by
  have := h.transCmp
  have hpositions := map_get_insertionSort cmp l
  -- the positions are sorted along with the elements, and those of a tie keep their order
  refine ⟨List.perm_insertionSort _ l, ?_, _, List.perm_insertionSort _ _, hpositions.symm, ?_⟩
  · rw [← hpositions, List.pairwise_map]
    refine (List.pairwise_insertionSort _ _).imp fun {i j} hij hlt => ?_
    have hgt := h.swap _ (l.get_mem j) _ (l.get_mem i) _ hlt
    exact (h.noLater_iff (l.get_mem i) (l.get_mem j)).1 hij hgt
  · refine (pairwise_insertionSort_ties (List.pairwise_lt_finRange _)).imp fun hij htie => ?_
    exact hij (outcome_of_eq htie)

end Lawful

/-! ## Laws of comparisons made from others -/

/-- A total preorder on the positions makes the comparison lawful on the list. -/
theorem lawful_of_eq_ok {o : Fin l.length → Fin l.length → Ordering} [Std.TransCmp o]
    (h : ∀ i j, cmp (l.get i) (l.get j) = .ok (o i j)) : Lawful cmp l where
  succeeds a ha b hb := by
    obtain ⟨i, rfl⟩ := List.get_of_mem ha
    obtain ⟨j, rfl⟩ := List.get_of_mem hb
    exact ⟨_, h i j⟩
  swap a ha b hb _ hab := by
    obtain ⟨i, rfl⟩ := List.get_of_mem ha
    obtain ⟨j, rfl⟩ := List.get_of_mem hb
    rw [h] at hab ⊢
    have hswap : o j i = (o i j).swap := Std.OrientedCmp.eq_swap
    rw [hswap, Except.ok.inj hab]
  trans a ha b hb c hc hab hbc := by
    obtain ⟨i, rfl⟩ := List.get_of_mem ha
    obtain ⟨j, rfl⟩ := List.get_of_mem hb
    obtain ⟨k, rfl⟩ := List.get_of_mem hc
    simp only [h, ne_eq, Except.ok.injEq, ← Ordering.isLE_iff_ne_gt] at hab hbc ⊢
    exact Std.TransCmp.isLE_trans hab hbc

namespace Lawful

/-- Elements may be compared by images that compare lawfully. -/
theorem comap {cmp : β → β → Except ε Ordering} {f : α → β} (h : Lawful cmp (l.map f)) :
    Lawful (fun a b => cmp (f a) (f b)) l where
  succeeds _ ha _ hb := h.succeeds _ (List.mem_map_of_mem ha) _ (List.mem_map_of_mem hb)
  swap _ ha _ hb := h.swap _ (List.mem_map_of_mem ha) _ (List.mem_map_of_mem hb)
  trans _ ha _ hb _ hc :=
    h.trans _ (List.mem_map_of_mem ha) _ (List.mem_map_of_mem hb) _ (List.mem_map_of_mem hc)

end Lawful

end

end RecordRules.StableOrder
