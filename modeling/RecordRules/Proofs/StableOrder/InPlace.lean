import RecordRules.Proofs.Comparator
import RecordRules.Proofs.Outcome
import RecordRules.StableOrder.InPlace

/-!
# Sorting in two buffers is merging runs

The loops over buffers do what the recursions over lists of runs do: a merge puts the merged run
over its part of the scratch buffer (`merge_eq`), a pass does so for all runs (`pass_eq`), and the
passes sort (`order_eq`).  In particular no access is outside of a buffer, and every loop
comes to its end in as many rounds as there are positions.
-/

namespace RecordRules.StableOrder.InPlace

variable {ε σ : Type}

/-! ## Buffers -/

/-- `part` is what stands in the buffer from `start` up to `stop`. -/
def Stands (buffer : List Nat) (start stop : Nat) (part : List Nat) : Prop :=
  ∃ before after, buffer = before ++ part ++ after ∧ before.length = start ∧
    start + part.length = stop

namespace Stands

variable {buffer part rest : List Nat} {start stop a : Nat}

/-- The distance between two positions is the length of what stands between them. -/
theorem distance_eq (h : Stands buffer start stop part) :
    distance start stop = (.ok part.length : Except (Fault ε) Nat) := by
  obtain ⟨before, after, -, -, rfl⟩ := h
  simp [distance]

/-- What stands between two positions is what is sliced from there. -/
theorem slice_eq (h : Stands buffer start stop part) :
    slice buffer start stop = (.ok part : Except (Fault ε) (List Nat)) := by
  obtain ⟨before, after, rfl, rfl, rfl⟩ := h
  simp [slice, List.drop_take]

/-- The element at a position is the first of what stands from there on. -/
theorem read_eq (h : Stands buffer start stop (a :: part)) :
    read buffer start = (.ok a : Except (Fault ε) Nat) := by
  obtain ⟨before, after, rfl, rfl, -⟩ := h
  simp [read]

/-- Without its first element a part stands one position further on. -/
theorem tail (h : Stands buffer start stop (a :: part)) : Stands buffer (start + 1) stop part := by
  obtain ⟨before, after, rfl, rfl, rfl⟩ := h
  exact ⟨before ++ [a], after, by simp, by simp, by simp; omega⟩

/-- The first of two parts ends where the second starts. -/
theorem left (h : Stands buffer start stop (part ++ rest)) :
    Stands buffer start (start + part.length) part := by
  obtain ⟨before, after, rfl, rfl, -⟩ := h
  exact ⟨before, rest ++ after, by simp, rfl, rfl⟩

/-- The second of two parts starts where the first ends. -/
theorem right (h : Stands buffer start stop (part ++ rest)) :
    Stands buffer (start + part.length) stop rest := by
  obtain ⟨before, after, rfl, rfl, rfl⟩ := h
  exact ⟨before ++ part, after, by simp, by simp, by simp; omega⟩

/-- A part ends as many positions after its start as it is long. -/
theorem add_length (h : Stands buffer start stop part) : start + part.length = stop := by
  obtain ⟨before, after, -, -, h⟩ := h
  exact h

end Stands

/-- Room for two runs is room for one and then for the other. -/
theorem exists_append_of_length {u : List Nat} {m n : Nat} (h : u.length = m + n) :
    ∃ v w, u = v ++ w ∧ v.length = m ∧ w.length = n :=
  ⟨u.take m, u.drop m, by simp, by simp [h], by simp [h]⟩

/-- Writing at a position replaces the element there and grows what was written before. -/
theorem write_append (t u w : List Nat) (x a : Nat) :
    write (t ++ x :: u ++ w) t.length a =
      (.ok (t ++ [a] ++ u ++ w) : Except (Fault ε) (List Nat)) := by
  simp [write]

/-- Overwriting replaces a part of the same length and leaves the rest alone. -/
theorem overwrite_append (t w : List Nat) {u part : List Nat} {k stop : Nat}
    (hk : t.length = k) (hstop : k + part.length = stop) (hu : part.length = u.length) :
    overwrite (t ++ u ++ w) k stop part =
      (.ok (t ++ part ++ w) : Except (Fault ε) (List Nat)) := by
  subst hk hstop
  simp [overwrite, hu]

/-! ## Loops -/

section

variable {more : σ → Prop} [DecidablePred more] {step : σ → Except (Fault ε) σ} {rounds : Nat}
  {s : σ}

/-- A loop with nothing left to do ends. -/
theorem repeatWhile_of_not (h : ¬ more s) : repeatWhile more step rounds s = .ok s := by
  rw [repeatWhile.eq_def, if_neg h]

/-- A loop with something to do makes a step and goes on. -/
theorem repeatWhile_succ (h : more s) :
    repeatWhile more step (rounds + 1) s = (step s).bind (repeatWhile more step rounds) := by
  rw [repeatWhile, if_pos h]
  rfl

end

/-! ## One merge -/

section

variable {cmp : Nat → Nat → Except ε Ordering} {order t u w left right : List Nat}
  {i j mid stop rounds : Nat}

/-- Both positions are before their ends exactly if both runs have elements left. -/
theorem lt_and_lt_iff (hleft : Stands order i mid left) (hright : Stands order j stop right) :
    i < mid ∧ j < stop ↔ left ≠ [] ∧ right ≠ [] := by
  have hi := hleft.add_length
  have hj := hright.add_length
  rw [← List.length_pos_iff, ← List.length_pos_iff]
  omega

/-- A step of the merge writes one of the first elements, as the comparison of the two tells. -/
theorem mergeStep_eq {a b x : Nat} (hleft : Stands order i mid (a :: left))
    (hright : Stands order j stop (b :: right)) :
    mergeStep cmp order ⟨i, j, t.length, t ++ x :: u ++ w⟩ =
      ((cmp b a).mapError .comparison).map fun
        | .lt => ⟨i, j + 1, (t ++ [b]).length, t ++ [b] ++ u ++ w⟩
        | _ => ⟨i + 1, j, (t ++ [a]).length, t ++ [a] ++ u ++ w⟩ := by
  simp only [mergeStep, hleft.read_eq, hright.read_eq, write_append, bind, Except.bind]
  rw [List.length_append, List.length_append]
  cases cmp b a with
  | error e => rfl
  | ok o => cases o <;> rfl

/-- Once a run is used up, what is left of the two is copied as it stands. -/
theorem copyRests_eq (hleft : Stands order i mid left) (hright : Stands order j stop right)
    (hu : u.length = left.length + right.length) :
    copyRests order mid stop ⟨i, j, t.length, t ++ u ++ w⟩ =
      (.ok (t ++ (left ++ right) ++ w) : Except (Fault ε) (List Nat)) := by
  obtain ⟨u, v, rfl, hu, hv⟩ := exists_append_of_length hu
  have hfirst : overwrite (t ++ (u ++ v) ++ w) t.length (t.length + left.length) left =
      (.ok (t ++ left ++ (v ++ w)) : Except (Fault ε) (List Nat)) := by
    rw [← overwrite_append t (v ++ w) rfl rfl hu.symm]
    simp
  have hsecond : overwrite (t ++ left ++ (v ++ w)) (t.length + left.length)
      (t.length + left.length + right.length) right =
      (.ok (t ++ (left ++ right) ++ w) : Except (Fault ε) (List Nat)) := by
    rw [← List.append_assoc _ v, overwrite_append (t ++ left) w (by simp) rfl hv.symm]
    simp
  rw [copyRests]
  simp only [hleft.distance_eq, hleft.slice_eq, hright.distance_eq, hright.slice_eq]
  show (overwrite _ _ _ _).bind _ = _
  rw [hfirst]
  exact hsecond

/-- To merge behind one element more is to put it in front of the merge. -/
theorem map_append_cons (x : Except ε (List Nat)) (a : Nat) :
    (x.mapError Fault.comparison).map (t ++ [a] ++ · ++ w) =
      ((x.map (a :: ·)).mapError Fault.comparison).map (t ++ · ++ w) := by
  cases x <;> simp [Except.map, Except.mapError]

/-- Where a run is used up, what is left of the other one follows. -/
theorem merge_of_nil (h : left = [] ∨ right = []) (hleft : Stands order i mid left)
    (hright : Stands order j stop right) (hu : u.length = left.length + right.length) :
    merge cmp order rounds mid stop ⟨i, j, t.length, t ++ u ++ w⟩ =
      ((StableOrder.merge cmp left right).mapError .comparison).map (t ++ · ++ w) := by
  have hends : ¬ (i < mid ∧ j < stop) := by
    rw [lt_and_lt_iff hleft hright]
    rintro ⟨hl, hr⟩
    exact h.elim hl hr
  have hmerge : StableOrder.merge cmp left right = .ok (left ++ right) := by
    rcases h with rfl | rfl <;> simp
  rw [merge, repeatWhile_of_not (by exact hends), hmerge]
  exact copyRests_eq hleft hright hu

/-- The scratch buffer holds `t` before the place written next, and behind it there is room `u`
for what is left of the runs.  This is merged into the room, and the rest `w` stays. -/
theorem merge_eq (hrounds : left.length + right.length ≤ rounds)
    (hleft : Stands order i mid left) (hright : Stands order j stop right)
    (hu : u.length = left.length + right.length) :
    merge cmp order rounds mid stop ⟨i, j, t.length, t ++ u ++ w⟩ =
      ((StableOrder.merge cmp left right).mapError .comparison).map (t ++ · ++ w) := by
  induction rounds generalizing left right i j t u with
  | zero =>
    have hnil : left = [] := List.eq_nil_of_length_eq_zero (by omega)
    exact merge_of_nil (.inl hnil) hleft hright hu
  | succ rounds ih =>
    match left, right, u with
    | [], _, _ => exact merge_of_nil (.inl rfl) hleft hright hu
    | _ :: _, [], _ => exact merge_of_nil (.inr rfl) hleft hright hu
    | a :: left, b :: right, x :: u =>
      simp only [List.length_cons] at hrounds hu
      have hmore : i < mid ∧ j < stop := (lt_and_lt_iff hleft hright).2 (by simp)
      rw [merge, repeatWhile_succ (by exact hmore), mergeStep_eq hleft hright, merge_cons_cons]
      cases cmp b a with
      | error e => rfl
      | ok o =>
        -- both branches write one element and go on with one less of the run it came from
        have htakesRight := ih (by simp; omega) hleft hright.tail (u := u) (t := t ++ [b])
          (by simp; omega)
        have htakesLeft := ih (by simp; omega) hleft.tail hright (u := u) (t := t ++ [a])
          (by simp; omega)
        rw [map_append_cons] at htakesRight htakesLeft
        cases o with
        | lt => exact htakesRight
        | eq | gt => exact htakesLeft

end

/-! ## One pass -/

/-- Runs one after another, each as long as the width and what is left allow. -/
def Aligned (width : Nat) : List (List Nat) → Prop
  | [] => True
  | run :: runs => run ≠ [] ∧ run.length = min width (run.length + runs.flatten.length) ∧
      Aligned width runs

section

variable {cmp : Nat → Nat → Except ε Ordering} {order t u w left right scratch : List Nat}
  {runs : List (List Nat)} {len width rounds : Nat}

/-- At first each run is a single element. -/
theorem aligned_singletons (l : List Nat) : Aligned 1 (l.map ([·])) := by
  induction l with
  | nil => trivial
  | cons a l ih => exact ⟨by simp, by simp, ih⟩

/-- No element gets lost in a merge, so the run takes up the place of the two it came from. -/
theorem length_of_merge_eq_ok (h : StableOrder.merge cmp left right = .ok u) :
    u.length = left.length + right.length := by
  rw [(perm_of_merge_eq_ok h).length_eq, List.length_append]

/-- Joined runs are twice as wide. -/
theorem aligned_pass : {runs joined : List (List Nat)} → Aligned width runs →
    StableOrder.pass cmp runs = .ok joined → Aligned (2 * width) joined
  | [], joined, _, hpass => by
    obtain rfl : [] = joined := Except.ok.inj hpass
    trivial
  | [run], joined, h, hpass => by
    obtain rfl : [run] = joined := Except.ok.inj hpass
    obtain ⟨hne, hlength, -⟩ := h
    refine ⟨hne, ?_, trivial⟩
    rw [List.flatten_nil, List.length_nil] at hlength ⊢
    omega
  | left :: right :: rest, joined, h, hpass => by
    obtain ⟨hleft, hleftLength, hright, hrightLength, hrest⟩ := h
    obtain ⟨merged, joined, hmerged, hjoined, rfl⟩ := pass_eq_ok_iff.1 hpass
    have hmergedLength := length_of_merge_eq_ok hmerged
    rw [← List.length_pos_iff] at hleft
    refine ⟨?_, ?_, aligned_pass hrest hjoined⟩
    · rw [← List.length_pos_iff]
      omega
    · rw [(perm_of_pass_eq_ok hjoined).length_eq]
      rw [List.flatten_cons, List.length_append] at hleftLength
      omega

/-- A step of a pass merges the two runs it stands at, into their place in the other buffer. -/
theorem passStep_eq {mid stop : Nat} (hmid : min (t.length + width) len = mid)
    (hstop : min (t.length + 2 * width) len = stop) (hleft : Stands order t.length mid left)
    (hright : Stands order mid stop right) (hu : u.length = left.length + right.length)
    (hrounds : u.length ≤ rounds) :
    passStep rounds len cmp width order ⟨t.length, t ++ u ++ w⟩ =
      ((StableOrder.merge cmp left right).mapError .comparison).map fun merged =>
        ⟨(t ++ merged).length, t ++ merged ++ w⟩ := by
  rw [passStep, hmid, hstop, merge_eq (by omega) hleft hright hu]
  cases hmerge : StableOrder.merge cmp left right with
  | error e => rfl
  | ok merged =>
    have hlength : stop = (t ++ merged).length := by
      have hleft := hleft.add_length
      have hright := hright.add_length
      rw [List.length_append, length_of_merge_eq_ok hmerge]
      omega
    rw [hlength]
    rfl

/-- The runs from `t.length` on are merged two by two into the room `u` behind `t`. -/
theorem passLoop_eq : {runs : List (List Nat)} → {t u : List Nat} → {turns : Nat} →
    Aligned width runs → Stands order t.length len runs.flatten →
    u.length = runs.flatten.length → u.length ≤ rounds → runs.length ≤ turns →
    (repeatWhile (·.start < len) (passStep rounds len cmp width order) turns
        ⟨t.length, t ++ u⟩).map (·.scratch) =
      ((StableOrder.pass cmp runs).mapError .comparison).map (t ++ ·.flatten)
  | [], t, u, turns, _, hstands, hu, _, _ => by
    obtain rfl : u = [] := List.eq_nil_of_length_eq_zero hu
    have hlen : t.length = len := hstands.add_length
    rw [repeatWhile_of_not (by simp [hlen])]
    rfl
  | [run], t, u, turns + 1, haligned, hstands, hu, hrounds, _ => by
    obtain ⟨hne, hwidth, -⟩ := haligned
    rw [← List.length_pos_iff] at hne
    rw [List.flatten_nil, List.length_nil] at hwidth
    rw [List.flatten_singleton] at hstands hu
    have hlen := hstands.add_length
    -- the right run is empty
    have hright : Stands order len len [] := by
      rw [← List.append_nil run] at hstands
      have h := hstands.right
      rwa [hlen] at h
    rw [repeatWhile_succ (by simp; omega), ← List.append_nil (t ++ u),
      passStep_eq (by omega) (by omega) hstands hright hu hrounds, merge_nil_right]
    show (repeatWhile _ _ _ _).map _ = _
    rw [repeatWhile_of_not (by simp [hlen])]
    simp [StableOrder.pass, Except.map, Except.mapError]
  | left :: right :: rest, t, u, turns + 1, haligned, hstands, hu, hrounds, hturns => by
    obtain ⟨hne, hleftWidth, -, hrightWidth, hrest⟩ := haligned
    rw [← List.length_pos_iff] at hne
    rw [List.flatten_cons, List.flatten_cons, ← List.append_assoc] at hstands hu
    rw [List.flatten_cons, List.length_append] at hleftWidth
    have hlen := hstands.add_length
    rw [List.length_append] at hlen hu
    obtain ⟨u, v, rfl, hu, hv⟩ := exists_append_of_length hu
    rw [List.length_append] at hlen hu hrounds
    have hmid : min (t.length + width) len = t.length + left.length := by omega
    have hstop : min (t.length + 2 * width) len = t.length + (left ++ right).length := by
      rw [List.length_append]
      omega
    rw [repeatWhile_succ (by simp; omega), ← List.append_assoc,
      passStep_eq hmid hstop hstands.left.left hstands.left.right hu (by omega),
      StableOrder.pass]
    cases hmerge : StableOrder.merge cmp left right with
    | error e => rfl
    | ok merged =>
      have hmerged : (t ++ merged).length = t.length + (left ++ right).length := by
        simp [length_of_merge_eq_ok hmerge]
      have hbehind : Stands order (t ++ merged).length len rest.flatten := by
        rw [hmerged]
        exact hstands.right
      have hturns : rest.length ≤ turns := by
        rw [List.length_cons, List.length_cons] at hturns
        omega
      refine (passLoop_eq hrest hbehind hv (by omega) hturns).trans ?_
      cases StableOrder.pass cmp rest <;>
        simp [Except.mapError, Except.map, bind, Except.bind, pure, Except.pure]

/-- There are no more runs than elements, as none of them is empty. -/
theorem length_le_of_aligned (h : Aligned width runs) : runs.length ≤ runs.flatten.length := by
  induction runs with
  | nil => exact le_rfl
  | cons run runs ih =>
    obtain ⟨hne, -, hruns⟩ := h
    have hle := ih hruns
    rw [← List.length_pos_iff] at hne
    rw [List.length_cons, List.flatten_cons, List.length_append]
    omega

/-- A pass over the buffer is a pass over the runs that stand in it. -/
theorem pass_eq (haligned : Aligned width runs) (hlen : runs.flatten.length = len)
    (hscratch : scratch.length = len) (hrounds : len ≤ rounds) :
    pass rounds len cmp width runs.flatten scratch =
      ((StableOrder.pass cmp runs).mapError .comparison).map List.flatten := by
  have hstands : Stands runs.flatten 0 len runs.flatten := ⟨[], [], by simp, rfl, by simp [hlen]⟩
  have hturns := length_le_of_aligned haligned
  exact passLoop_eq (t := []) haligned hstands (by omega) (by omega) (by omega)

end

/-! ## All passes -/

section

variable {cmp : Nat → Nat → Except ε Ordering} {scratch : List Nat} {runs : List (List Nat)}
  {len width rounds : Nat}

/-- As soon as one run may be as wide as everything, passes change nothing. -/
theorem passes_of_le (haligned : Aligned width runs) (hlen : runs.flatten.length ≤ width)
    (n : Nat) : passes cmp n runs = .ok runs := by
  have hpass : StableOrder.pass cmp runs = .ok runs := by
    match runs with
    | [] => rfl
    | [_] => rfl
    | left :: right :: rest =>
      obtain ⟨-, hleft, hright, -⟩ := haligned
      rw [← List.length_pos_iff] at hright
      simp only [List.flatten_cons, List.length_append] at hleft hlen
      omega
  induction n with
  | zero => rfl
  | succ n ih =>
    rw [passes, hpass]
    exact ih

/-- The whole loop makes the passes over the runs and doubles the width with each.  It may have
rounds to spare. -/
theorem sortLoop_eq {n : Nat} {order : List Nat} (spare : Nat) (haligned : Aligned width runs)
    (horder : runs.flatten = order) (hlen : order.length = len) (hscratch : scratch.length = len)
    (hrounds : len ≤ rounds) (hwidth : 0 < width) (hn : len ≤ width + n) :
    (repeatWhile (·.width < len) (sortStep rounds len cmp) (n + spare)
        ⟨width, order, scratch⟩).map (·.order) =
      ((passes cmp n runs).mapError .comparison).map List.flatten := by
  induction n generalizing width order scratch runs with
  | zero =>
    rw [repeatWhile_of_not (by simp; omega), ← horder]
    rfl
  | succ n ih =>
    subst horder
    by_cases hmore : width < len
    · rw [Nat.add_right_comm, repeatWhile_succ (by exact hmore), sortStep,
        pass_eq haligned hlen hscratch hrounds, passes]
      cases hpass : StableOrder.pass cmp runs with
      | error e => rfl
      | ok joined =>
        have hjoined := (perm_of_pass_eq_ok hpass).length_eq.trans hlen
        -- the buffers change places
        show (repeatWhile _ _ _ (Sorting.mk (2 * width) joined.flatten runs.flatten)).map _ = _
        exact ih (aligned_pass haligned hpass) rfl hjoined hlen (by omega) (by omega)
    · rw [repeatWhile_of_not (by exact hmore), passes_of_le haligned (by omega)]
      rfl

/-- With a round for each position, the sort in buffers comes to what merging lists of runs comes
to. -/
theorem order_eq (cmp : Nat → Nat → Except ε Ordering) (len spare : Nat) :
    order (len + spare) len cmp = (StableOrder.order len cmp).mapError .comparison := by
  have hlen : (List.range len).length = len := List.length_range
  have hruns : ((List.range len).map ([·])).flatten = List.range len :=
    (List.range len).flatMap_singleton'
  rw [order, StableOrder.order, sort, hlen]
  refine (sortLoop_eq spare (aligned_singletons (List.range len)) hruns hlen hlen
    (Nat.le_add_right len spare) Nat.one_pos (Nat.le_add_left len 1)).trans ?_
  cases passes cmp len ((List.range len).map ([·])) <;> rfl

/-- A round less than a loop needs is told. -/
example : order 1 3 (fun i j => (.ok (compare i j) : Except Empty Ordering)) =
    .error .unfinished := by
  decide

end

/-! ## Whatever the comparison -/

/-- Sorting neither loses nor doubles anything, whatever the comparison.  The sort in buffers
gives all positions in some order, the one that merging runs gives, or it fails with what the
comparison of two different positions failed with; so no access was outside of a buffer, and every
loop came to its end.  Records are sorted likewise. -/
theorem order_perm_or_error :
    (∀ {ε : Type} (cmp : Nat → Nat → Except ε Ordering) (len spare : Nat),
      (∃ positions, order (len + spare) len cmp = .ok positions ∧
        StableOrder.order len cmp = .ok positions ∧ positions.Perm (List.range len)) ∨
      ∃ e i j, order (len + spare) len cmp = .error (.comparison e) ∧
        StableOrder.order len cmp = .error e ∧ i < len ∧ j < len ∧ i ≠ j ∧ cmp i j = .error e) ∧
    ∀ (c : Comparator) (records : List Value),
      (∃ sorted, c.sort records = .ok sorted ∧ sorted.Perm records) ∨
      ∃ e a b, c.sort records = .error e ∧ [a, b].Subperm records ∧ c.compare a b = .error e := by
  constructor
  · intro ε cmp len spare
    have harranges : Arranges cmp _ (StableOrder.order len cmp) := sort_arranges (List.range len)
    rw [order_eq]
    cases hsort : StableOrder.order len cmp with
    | ok positions => exact .inl ⟨positions, rfl, rfl, harranges.perm_of_eq_ok hsort⟩
    | error e =>
      obtain ⟨i, j, hij, he⟩ := harranges.exists_of_eq_error hsort
      obtain ⟨hi, hj⟩ : i < len ∧ j < len := by simpa using hij.subset
      obtain ⟨_, hperm, hsub⟩ := hij
      -- two places in a list without repetitions hold different positions
      have hne : i ≠ j := by
        have hnodup := hperm.nodup_iff.1 (hsub.nodup List.nodup_range)
        simpa using hnodup
      exact .inr ⟨e, i, j, rfl, rfl, hi, hj, hne, he⟩
  · intro c records
    have harranges := c.sort_arranges records
    cases hsort : c.sort records with
    | ok sorted => exact .inl ⟨sorted, rfl, harranges.perm_of_eq_ok hsort⟩
    | error e =>
      obtain ⟨a, b, hab, he⟩ := harranges.exists_of_eq_error hsort
      exact .inr ⟨e, a, b, rfl, hab, he⟩

end RecordRules.StableOrder.InPlace
