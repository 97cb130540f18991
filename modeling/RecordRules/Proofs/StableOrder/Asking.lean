import RecordRules.Proofs.StableOrder.InPlace

/-!
# No element is left out

A sort that comes to its end has compared each element with another one (`exists_sort_needs`).
What a computation has asked is told without looking into it: a part of the comparison that does
not compare two elements is not enough for the computation if it asks about them (`Needs`).

An element is a run by itself until it is merged with a neighbour.  However long it is left over,
it is the head of its run then, and the first question of that merge is about it.
-/

namespace RecordRules.StableOrder

variable {α β γ ε ε' : Type}

/-! ## Parts of a comparison -/

/-- Where `part` has an answer, it is that of `cmp`. -/
def PartOf (part cmp : α → α → Except ε Ordering) : Prop :=
  ∀ a b o, part a b = .ok o → cmp a b = .ok o

/-- The computation does not come to its end by a part of `cmp` that does not compare the two
elements, in one order or the other. -/
def Needs (run : (α → α → Except ε Ordering) → Except ε' β) (cmp : α → α → Except ε Ordering)
    (a b : α) : Prop :=
  ∀ part, PartOf part cmp → ∀ r, run part = .ok r →
    (∃ o, part a b = .ok o) ∨ ∃ o, part b a = .ok o

section

variable {cmp part : α → α → Except ε Ordering} {a b x y : α} {left right l : List α}
  {runs joined : List (List α)}

/-- A comparison is a part of itself. -/
theorem PartOf.refl (cmp : α → α → Except ε Ordering) : PartOf cmp cmp := fun _ _ _ h => h

/-- It does not matter in which order the two elements are named. -/
theorem Needs.symm {run : (α → α → Except ε Ordering) → Except ε' β} (h : Needs run cmp a b) :
    Needs run cmp b a :=
  fun part hpart r hr => (h part hpart r hr).symm

/-- A computation that needs a comparison does not succeed when the comparison fails both ways. -/
theorem Needs.ne_ok {run : (α → α → Except ε Ordering) → Except ε' β} (h : Needs run cmp a b)
    (hab : ∃ e, cmp a b = .error e) (hba : ∃ e, cmp b a = .error e) (r : β) :
    run cmp ≠ .ok r := by
  intro hr
  obtain ⟨e, hab⟩ := hab
  obtain ⟨e', hba⟩ := hba
  rcases h cmp (.refl cmp) r hr with ⟨o, ho⟩ | ⟨o, ho⟩
  · cases hab.symm.trans ho
  · cases hba.symm.trans ho

/-- A computation needs what the ones need that it depends on. -/
theorem Needs.of_step {run : (α → α → Except ε Ordering) → Except ε' β}
    {step : (α → α → Except ε Ordering) → Except ε γ} (h : Needs step cmp a b)
    (hstep : ∀ part, PartOf part cmp → ∀ r, run part = .ok r → ∃ s, step part = .ok s) :
    Needs run cmp a b := by
  intro part hpart r hr
  obtain ⟨s, hs⟩ := hstep part hpart r hr
  exact h part hpart s hs

/-- A part that is enough for a merge merges likewise. -/
theorem PartOf.merge_eq_ok (hpart : PartOf part cmp) (h : merge part left right = .ok l) :
    merge cmp left right = .ok l := by
  induction left generalizing right l with
  | nil => exact h
  | cons a left ihl =>
    induction right generalizing l with
    | nil => exact h
    | cons b right ihr =>
      rw [merge_cons_cons] at h ⊢
      obtain ⟨o, ho, h⟩ := bind_eq_ok_iff.1 h
      rw [hpart b a o ho]
      cases o with
      | lt =>
        obtain ⟨merged, hmerged, rfl⟩ := map_eq_ok_iff.1 h
        exact map_eq_ok_iff.2 ⟨merged, ihr hmerged, rfl⟩
      | eq | gt =>
        obtain ⟨merged, hmerged, rfl⟩ := map_eq_ok_iff.1 h
        exact map_eq_ok_iff.2 ⟨merged, ihl hmerged, rfl⟩

/-- What a pass makes by a part of the comparison it makes by the whole. -/
theorem PartOf.pass_eq_ok (hpart : PartOf part cmp) : {runs joined : List (List α)} →
    pass part runs = .ok joined → pass cmp runs = .ok joined
  | _ :: _ :: _, _, h => by
    obtain ⟨merged, others, hmerged, hothers, hjoined⟩ := pass_eq_ok_iff.1 h
    exact pass_eq_ok_iff.2
      ⟨merged, others, hpart.merge_eq_ok hmerged, hpart.pass_eq_ok hothers, hjoined⟩
  | [_], _, h => h
  | [], _, h => h

/-! ## What is asked -/

/-- The first question of a merge is about the heads of the runs. -/
theorem merge_needs : Needs (merge · (a :: left) (b :: right)) cmp a b := by
  intro part _ merged hmerged
  have hmerged : merge part (a :: left) (b :: right) = .ok merged := hmerged
  rw [merge_cons_cons] at hmerged
  obtain ⟨o, ho, -⟩ := bind_eq_ok_iff.1 hmerged
  exact .inr ⟨o, ho⟩

/-- The merge of an element with its neighbour asks about it, unless the neighbour is empty and
the element stays by itself. -/
theorem merge_needs_or_eq (cmp : α → α → Except ε Ordering) (x : α) (l : List α) :
    (∃ b ∈ l, Needs (merge · [x] l) cmp x b ∧ Needs (merge · l [x]) cmp x b) ∨
      merge cmp [x] l = .ok [x] ∧ merge cmp l [x] = .ok [x] := by
  cases l with
  | nil => exact .inr ⟨rfl, rfl⟩
  | cons b l => exact .inl ⟨b, .head _, merge_needs, merge_needs.symm⟩

/-- A pass needs what the merge of its first two runs needs. -/
theorem pass_needs_of_merge {rest : List (List α)} (h : Needs (merge · left right) cmp a b) :
    Needs (pass · (left :: right :: rest)) cmp a b := by
  refine h.of_step fun part _ joined hjoined => ?_
  obtain ⟨merged, -, hmerged, -⟩ := pass_eq_ok_iff.1 hjoined
  exact ⟨merged, hmerged⟩

/-- A pass needs what the pass over the remaining runs needs. -/
theorem pass_needs_of_pass {rest : List (List α)} (h : Needs (pass · rest) cmp a b) :
    Needs (pass · (left :: right :: rest)) cmp a b := by
  refine h.of_step fun part _ joined hjoined => ?_
  obtain ⟨-, others, -, hothers, -⟩ := pass_eq_ok_iff.1 hjoined
  exact ⟨others, hothers⟩

/-- A pass asks about an element that is a run by itself, or leaves it so. -/
theorem exists_pass_needs : {runs joined : List (List α)} → [x] ∈ runs →
    pass cmp runs = .ok joined →
    (∃ y, [x, y].Subperm runs.flatten ∧ Needs (pass · runs) cmp x y) ∨ [x] ∈ joined
  | left :: right :: rest, joined, hx, hpass => by
    obtain ⟨merged, others, hmerged, hothers, rfl⟩ := pass_eq_ok_iff.1 hpass
    rw [List.mem_cons, List.mem_cons] at hx
    -- the element is the left run of the first pair, the right run of it, or further on
    rcases hx with rfl | rfl | hx
    · rcases merge_needs_or_eq cmp x right with
        ⟨y, hy, hneeds, -⟩ | ⟨heq, -⟩
      · refine .inl ⟨y, ?_, pass_needs_of_merge hneeds⟩
        have hsub : [y].Sublist (right ++ rest.flatten) :=
          List.singleton_sublist.2 (List.mem_append_left _ hy)
        exact (hsub.cons_cons x).subperm
      · obtain rfl := Except.ok.inj (heq.symm.trans hmerged)
        exact .inr (.head _)
    · rcases merge_needs_or_eq cmp x left with
        ⟨y, hy, -, hneeds⟩ | ⟨-, heq⟩
      · refine .inl ⟨y, ?_, pass_needs_of_merge hneeds⟩
        have hsub : [y, x].Sublist (left ++ [x] ++ rest.flatten) :=
          ((List.singleton_sublist.2 hy).append (.refl [x])).trans (List.sublist_append_left _ _)
        rw [List.flatten_cons, List.flatten_cons, ← List.append_assoc]
        exact (List.Perm.swap y x []).subperm.trans hsub.subperm
      · obtain rfl := Except.ok.inj (heq.symm.trans hmerged)
        exact .inr (.head _)
    · rcases exists_pass_needs hx hothers with ⟨y, hy, hneeds⟩ | hleft
      · refine .inl ⟨y, ?_, pass_needs_of_pass hneeds⟩
        rw [List.flatten_cons, List.flatten_cons, ← List.append_assoc]
        exact hy.trans (List.sublist_append_right _ _).subperm
      · exact .inr (.tail _ hleft)
  | [run], joined, hx, hpass => by
    obtain rfl := Except.ok.inj hpass
    exact .inr hx

/-- Passes that leave one run of two elements or more ask about each that is a run by itself. -/
theorem exists_passes_needs {n : Nat} {whole : List (List α)} (hx : [x] ∈ runs)
    (hlength : 2 ≤ runs.flatten.length) (hn : runs.length ≤ n + 1)
    (h : passes cmp n runs = .ok whole) :
    ∃ y, [x, y].Subperm runs.flatten ∧ Needs (passes · n runs) cmp x y := by
  induction n generalizing runs with
  | zero =>
    obtain ⟨run, rfl⟩ := List.length_eq_one_iff.1 (le_antisymm hn (List.length_pos_of_mem hx))
    obtain rfl := List.mem_singleton.1 hx
    simp at hlength
  | succ n ih =>
    obtain ⟨joined, hjoined, hwhole⟩ := passes_eq_ok_iff.1 h
    rcases exists_pass_needs hx hjoined with ⟨y, hy, hneeds⟩ | hleft
    · refine ⟨y, hy, hneeds.of_step fun part _ whole hwhole => ?_⟩
      obtain ⟨joined, hjoined, -⟩ := passes_eq_ok_iff.1 hwhole
      exact ⟨joined, hjoined⟩
    · have hperm := perm_of_pass_eq_ok hjoined
      have hhalved := length_of_pass_eq_ok hjoined
      obtain ⟨y, hy, hneeds⟩ := ih hleft (hperm.length_eq ▸ hlength) (by omega) hwhole
      refine ⟨y, hy.trans hperm.subperm, hneeds.of_step fun part hpart whole' h' => ?_⟩
      obtain ⟨joined', hjoined', hwhole'⟩ := passes_eq_ok_iff.1 h'
      -- what the part has joined is what the comparison has joined
      obtain rfl : joined' = joined :=
        Except.ok.inj ((hpart.pass_eq_ok hjoined').symm.trans hjoined)
      exact ⟨whole', hwhole'⟩

/-- A sort that comes to its end has asked how each element compares with another one. -/
theorem exists_sort_needs {sorted : List α} (hx : x ∈ l) (hl : 2 ≤ l.length)
    (h : sort cmp l = .ok sorted) :
    ∃ y, [x, y].Subperm l ∧ Needs (sort · l) cmp x y := by
  have hflatten : (l.map ([·])).flatten = l := l.flatMap_singleton'
  obtain ⟨whole, hwhole, -⟩ := map_eq_ok_iff.1 h
  obtain ⟨y, hy, hneeds⟩ := exists_passes_needs (List.mem_map_of_mem (f := ([·])) hx)
    (hflatten.symm ▸ hl) (by simp) hwhole
  rw [hflatten] at hy
  refine ⟨y, hy, hneeds.of_step fun part _ sorted hsorted => ?_⟩
  obtain ⟨whole, hwhole, -⟩ := map_eq_ok_iff.1 hsorted
  exact ⟨whole, hwhole⟩

/-- A sort fails if one of its elements does not compare with any other. -/
theorem exists_sort_eq_error (hx : x ∈ l) (hl : 2 ≤ l.length)
    (hfails : ∀ y, [x, y].Subperm l →
      (∃ e, cmp x y = .error e) ∧ ∃ e, cmp y x = .error e) :
    ∃ e, sort cmp l = .error e := by
  cases h : sort cmp l with
  | error e => exact ⟨e, rfl⟩
  | ok sorted =>
    obtain ⟨y, hy, hneeds⟩ := exists_sort_needs hx hl h
    obtain ⟨hxy, hyx⟩ := hfails y hy
    exact absurd h (hneeds.ne_ok hxy hyx sorted)

end

/-! ## Positions and records -/

/-- Two positions that stand at different places in the range are different positions of it. -/
theorem lt_and_ne_of_subperm_range {x y len : Nat} (h : [x, y].Subperm (List.range len)) :
    y < len ∧ y ≠ x := by
  have hy : y < len := List.mem_range.1 (h.subset (by simp))
  obtain ⟨_, hperm, hsub⟩ := h
  have hnodup : [x, y].Nodup := hperm.nodup_iff.1 (hsub.nodup List.nodup_range)
  have hne : x ≠ y := by simpa using hnodup
  exact ⟨hy, hne.symm⟩

/-- Each position is needed in a comparison with another one when the order is found. -/
theorem exists_order_needs {cmp : Nat → Nat → Except ε Ordering} {len x : Nat}
    {positions : List Nat} (hlen : 2 ≤ len) (hx : x < len) (h : order len cmp = .ok positions) :
    ∃ y < len, y ≠ x ∧ Needs (order len) cmp x y := by
  obtain ⟨y, hxy, hneeds⟩ := exists_sort_needs (List.mem_range.2 hx) (by simpa) h
  obtain ⟨hy, hne⟩ := lt_and_ne_of_subperm_range hxy
  exact ⟨y, hy, hne, hneeds⟩

/-- Nothing is sorted that holds an element which does not compare.  If a position fails against
all others, the sort fails, by merging runs as in buffers, however far the position stands at the
ragged end; for a sort that comes to its end has compared each position with another one.  The
same goes for records, as soon as there is a key. -/
theorem InPlace.order_leaves_none_out :
    (∀ {ε : Type} (cmp : Nat → Nat → Except ε Ordering) (len spare x : Nat), 2 ≤ len → x < len →
      (∀ y < len, y ≠ x → (∃ e, cmp x y = .error e) ∧ ∃ e, cmp y x = .error e) →
      ∃ e, StableOrder.order len cmp = .error e ∧
        InPlace.order (len + spare) len cmp = .error (.comparison e)) ∧
    (∀ {ε : Type} (cmp : Nat → Nat → Except ε Ordering) (len spare x : Nat) (positions : List Nat),
      2 ≤ len → x < len → InPlace.order (len + spare) len cmp = .ok positions →
      ∃ y < len, y ≠ x ∧ Needs (StableOrder.order len) cmp x y ∧
        Needs (InPlace.order (len + spare) len) cmp x y) ∧
    ∀ (c : Comparator) (before after : List Value) (a : Value), c.keys ≠ [] →
      before ++ after ≠ [] →
      (∀ b ∈ before ++ after, (∃ e, c.compare a b = .error e) ∧ ∃ e, c.compare b a = .error e) →
      ∃ e, c.sort (before ++ a :: after) = .error e := by
  refine ⟨?_, ?_, ?_⟩
  · intro ε cmp len spare x hlen hx hfails
    obtain ⟨e, he⟩ : ∃ e, StableOrder.order len cmp = .error e := by
      refine exists_sort_eq_error (List.mem_range.2 hx) (by simpa) fun y hxy => ?_
      obtain ⟨hy, hne⟩ := lt_and_ne_of_subperm_range hxy
      exact hfails y hy hne
    refine ⟨e, he, ?_⟩
    rw [order_eq, he]
    rfl
  · intro ε cmp len spare x positions hlen hx h
    rw [order_eq, mapError_eq_ok_iff] at h
    obtain ⟨y, hy, hne, hneeds⟩ := exists_order_needs hlen hx h
    refine ⟨y, hy, hne, hneeds, hneeds.of_step fun part _ positions h => ?_⟩
    rw [order_eq, mapError_eq_ok_iff] at h
    exact ⟨positions, h⟩
  · intro c before after a hkeys hothers hfails
    have hperm : (before ++ a :: after).Perm (a :: (before ++ after)) := List.perm_middle
    rw [c.sort_of_ne_nil hkeys]
    -- among records equal ones may occur, so the element is named by its place in the list
    refine exists_sort_eq_error (x := a) (by simp) ?_ fun b hb => hfails b ?_
    · have hpos := List.length_pos_iff.2 hothers
      rw [hperm.length_eq, List.length_cons]
      omega
    · exact List.singleton_subperm_iff.1 ((List.subperm_cons a).1 (hperm.subperm_left.1 hb))

/-- The last of five positions, and of five records, is left over twice before it is compared. -/
theorem InPlace.order_leaves_none_out_last :
    ∃ (whole lacking : Nat → Nat → Except String Ordering) (c : Comparator)
      (before : List Value) (a : Value),
      whole = (fun i j => .ok (compare i j)) ∧
      lacking = (fun i j => if i = 4 ∨ j = 4 then .error "none" else .ok (compare i j)) ∧
      before = [.recordOf [("k", .int 3)], .recordOf [("k", .int 1)], .recordOf [("k", .int 2)],
        .recordOf [("k", .int 1)]] ∧
      a = .recordOf [("k", .text "a")] ∧
      (∃ e, StableOrder.order 5 lacking = .error e ∧
        InPlace.order 5 5 lacking = .error (.comparison e)) ∧
      InPlace.order 5 5 whole = .ok [0, 1, 2, 3, 4] ∧
      (∃ y < 5, y ≠ 4 ∧ Needs (StableOrder.order 5) whole 4 y ∧
        Needs (InPlace.order 5 5) whole 4 y) ∧
      c.keys ≠ [] ∧
      (∀ b ∈ before, (∃ e, c.compare a b = .error e) ∧ ∃ e, c.compare b a = .error e) ∧
      ∃ e, c.sort (before ++ [a]) = .error e := by
  let operation : StandardOperation :=
    { name := "compare"
      signature := ⟨[.int, .int], .ordering⟩
      run := Builtins.compare.run
      skipValidate := false
      notes := []
      origin := none }
  let c : Comparator := ⟨[⟨[.field "k"], operation, .desc⟩]⟩
  let before : List Value := [.recordOf [("k", .int 3)], .recordOf [("k", .int 1)],
    .recordOf [("k", .int 2)], .recordOf [("k", .int 1)]]
  let a : Value := .recordOf [("k", .text "a")]
  have hlacks : ∀ y < 5, y ≠ 4 →
      (∃ e, (if 4 = 4 ∨ y = 4 then .error "none" else .ok (compare 4 y) :
        Except String Ordering) = .error e) ∧
      ∃ e, (if y = 4 ∨ 4 = 4 then .error "none" else .ok (compare y 4) :
        Except String Ordering) = .error e := by
    intro y _ _
    simp
  have hsorts : InPlace.order 5 5 (fun i j => (.ok (compare i j) : Except String Ordering)) =
      .ok [0, 1, 2, 3, 4] :=
    (InPlace.order_eq _ 5 0).trans rfl
  have hfails : ∀ b ∈ before,
      (∃ e, c.compare a b = .error e) ∧ ∃ e, c.compare b a = .error e := by
    simp only [before, List.forall_mem_cons, List.not_mem_nil, false_imp_iff, implies_true,
      and_true]
    exact ⟨⟨⟨_, rfl⟩, _, rfl⟩, ⟨⟨_, rfl⟩, _, rfl⟩, ⟨⟨_, rfl⟩, _, rfl⟩, ⟨_, rfl⟩, _, rfl⟩
  obtain ⟨herror, hneeds, hrecords⟩ := InPlace.order_leaves_none_out
  exact ⟨_, _, c, before, a, rfl, rfl, rfl, rfl,
    herror _ 5 0 4 (by decide) (by decide) hlacks, hsorts,
    hneeds _ 5 0 4 _ (by decide) (by decide) hsorts, by simp [c], hfails,
    hrecords c before [] a (by simp [c]) (by simp [before]) (by simpa using hfails)⟩

end RecordRules.StableOrder
