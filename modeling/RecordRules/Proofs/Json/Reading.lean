import RecordRules.Json.Reader
import RecordRules.Proofs.Json.Lexing
import RecordRules.Proofs.Json.Members

/-!
# Texts that are read back

The reader makes the value again from its tokens, unless more arrays and objects are open at a
time than it allows (`Json.parse?_compact`).
-/

namespace RecordRules

namespace Json

variable {j : Json} {fs : List Frame}

mutual

/-- How many arrays and objects are open at a time. -/
def depth : Json → Nat
  | .arr items => depthOf items + 1
  | .obj members => depthOfMembers members + 1
  | _ => 0

def depthOf : List Json → Nat
  | [] => 0
  | j :: rest => max (depth j) (depthOf rest)

def depthOfMembers : List (String × Json) → Nat
  | [] => 0
  | (_, j) :: rest => max (depth j) (depthOfMembers rest)

end

/-- The tokens of the value are taken for it wherever a value may stand, unless too many arrays and
objects would be open. -/
def Reads (j : Json) : Prop :=
  ∀ fs ts, fs.length ≤ maxOpen → (j.tokens ++ ts).foldlM step (.value fs) =
    if fs.length + j.depth ≤ maxOpen then ts.foldlM step (deliver j fs) else none

/-- Inside an open array or object a value is read from its tokens and handed to the innermost
frame, unless too many frames would be open at its deepest point. -/
theorem Reads.inside (hj : Reads j) (hfs : fs.length < maxOpen) (f : Frame) (ts : List Token) :
    (j.tokens ++ ts).foldlM step (.value (f :: fs)) =
      if fs.length + 1 + j.depth ≤ maxOpen then ts.foldlM step (deliver j (f :: fs)) else none :=
  hj (f :: fs) ts hfs

/-- Opened within the limit are two parts if the deeper one is. -/
theorem ite_depth {β : Type} (opened d e : Nat) (x : Option β) :
    (if opened + 1 + d ≤ maxOpen then if opened + (e + 1) ≤ maxOpen then x else none else none)
      = if opened + (max d e + 1) ≤ maxOpen then x else none := by
  rw [← ite_and]
  exact if_congr (by omega) rfl rfl

/-- No value starts with the end of an array. -/
theorem foldlM_firstItem (j : Json) (fs : List Frame) (ts : List Token) :
    (j.tokens ++ ts).foldlM step (.firstItem fs) =
      (j.tokens ++ ts).foldlM step (.value (.array [] :: fs)) := by
  rcases j with _ | _ | _ | _ | _ | (_ | ⟨j, items⟩) | (_ | ⟨⟨k, j⟩, members⟩) <;> rfl

/-- The items of an array are read one after the other, each with its comma, and the closing bracket
delivers the whole array. -/
theorem foldlM_itemTokens {items : List Json} (h : ∀ j ∈ items, Reads j)
    (hfs : fs.length < maxOpen) (before : List Json) (ts : List Token) :
    (itemTokens items ++ ts).foldlM step (.afterItem before fs) =
      if fs.length + (depthOf items + 1) ≤ maxOpen then
        ts.foldlM step (deliver (.arr (before.reverse ++ items)) fs) else none := by
  induction items generalizing before with
  | nil =>
    rw [depthOf, if_pos (by omega), List.append_nil]
    rfl
  | cons j items ih =>
    obtain ⟨hj, hitems⟩ := List.forall_mem_cons.1 h
    -- behind the comma the item is read like any value, with the array open around it
    have hnext : ((itemTokens (j :: items)) ++ ts).foldlM step (.afterItem before fs) =
        (j.tokens ++ (itemTokens items ++ ts)).foldlM step (.value (.array before :: fs)) := by
      rw [itemTokens, List.cons_append, List.append_assoc]
      rfl
    rw [hnext, hj.inside hfs, deliver, ih hitems, depthOf, ite_depth, List.reverse_cons,
      ← List.append_cons]

/-- The members of an object are read one after the other.  Their keys ascend, so that each is
inserted at the end and none replaces another. -/
theorem foldlM_memberTokens {members : List (String × Json)} (h : ∀ m ∈ members, Reads m.2)
    (hfs : fs.length < maxOpen) {before : List (String × Json)}
    (hascending : Entries.Ascending (before ++ members)) (ts : List Token) :
    (memberTokens members ++ ts).foldlM step (.afterMember before fs) =
      if fs.length + (depthOfMembers members + 1) ≤ maxOpen then
        ts.foldlM step (deliver (.obj (before ++ members)) fs) else none := by
  induction members generalizing before with
  | nil =>
    rw [depthOfMembers, if_pos (by omega), List.append_nil]
    rfl
  | cons m members ih =>
    obtain ⟨k, j⟩ := m
    obtain ⟨hj, hmembers⟩ := List.forall_mem_cons.1 h
    have hnext : (memberTokens ((k, j) :: members) ++ ts).foldlM step (.afterMember before fs) =
        (j.tokens ++ (memberTokens members ++ ts)).foldlM step
          (.value (.object before k :: fs)) := by
      rw [memberTokens, List.cons_append, List.cons_append, List.cons_append, List.append_assoc]
      rfl
    -- the new key is the greatest so far, so its member is put at the end
    have hlast : ∀ e ∈ before, e.1 < k := fun e he =>
      (List.pairwise_append.1 hascending).2.2 e he (k, j) List.mem_cons_self
    rw [List.append_cons] at hascending
    rw [hnext, hj.inside hfs, deliver, Entries.insert_eq_append hlast, ih hmembers hascending,
      depthOfMembers, ite_depth, ← List.append_cons]

/-- An array is read when its items are. -/
theorem reads_arr {items : List Json} (h : ∀ j ∈ items, Reads j) : Reads (.arr items) := by
  intro fs ts _
  rw [depth]
  by_cases hfs : fs.length < maxOpen
  · have hstart : step (.value fs) .arrayOpen = some (.firstItem fs) := if_pos hfs
    cases items with
    | nil =>
      rw [depthOf, if_pos (by omega), tokens, List.cons_append, List.foldlM_cons, hstart]
      rfl
    | cons j items =>
      obtain ⟨hj, hitems⟩ := List.forall_mem_cons.1 h
      rw [tokens, List.cons_append, List.append_assoc, List.foldlM_cons, hstart]
      change (j.tokens ++ (itemTokens items ++ ts)).foldlM step (.firstItem fs) = _
      rw [foldlM_firstItem, hj.inside hfs, deliver, foldlM_itemTokens hitems hfs, ite_depth]
      rfl
  · have hstart : step (.value fs) .arrayOpen = none := if_neg hfs
    rw [if_neg (by omega)]
    cases items <;> rw [tokens, List.cons_append, List.foldlM_cons, hstart] <;> rfl

/-- An object with ascending keys is read when its members are. -/
theorem reads_obj {members : List (String × Json)} (h : ∀ m ∈ members, Reads m.2)
    (hascending : Entries.Ascending members) : Reads (.obj members) := by
  intro fs ts _
  rw [depth]
  by_cases hfs : fs.length < maxOpen
  · have hstart : step (.value fs) .objectOpen = some (.firstKey fs) := if_pos hfs
    rcases members with _ | ⟨⟨k, j⟩, members⟩
    · rw [depthOfMembers, if_pos (by omega), tokens, List.cons_append, List.foldlM_cons, hstart]
      rfl
    · obtain ⟨hj, hmembers⟩ := List.forall_mem_cons.1 h
      rw [tokens, List.cons_append, List.cons_append, List.cons_append, List.append_assoc,
        List.foldlM_cons, hstart]
      change (j.tokens ++ (memberTokens members ++ ts)).foldlM step
        (.value (.object [] k :: fs)) = _
      rw [hj.inside hfs, deliver, Entries.insert, foldlM_memberTokens hmembers hfs hascending,
        ite_depth]
      rfl
  · have hstart : step (.value fs) .objectOpen = none := if_neg hfs
    rw [if_neg (by omega)]
    rcases members with _ | ⟨⟨k, j⟩, members⟩ <;>
      rw [tokens, List.cons_append, List.foldlM_cons, hstart] <;> rfl

/-- Canonical values are read from their tokens, by induction on the value. -/
theorem reads_of_canonical (h : Canonical j) : Reads j := by
  induction h with
  | null | bool | int | str => exact fun fs ts hfs => (if_pos hfs).symm
  | arr _ ih => exact reads_arr ih
  | obj hascending _ ih => exact reads_obj ih hascending

/-- A compact text is read as the value that it was printed for, unless this is too deep. -/
theorem parse?_compact (h : Canonical j) :
    parse? j.compact = if j.depth ≤ maxOpen then some j else none := by
  have hread := reads_of_canonical h [] [] (Nat.zero_le _)
  rw [List.append_nil, List.length_nil, Nat.zero_add] at hread
  rw [parse?, tokens?_toList_compact h, Option.bind_some, ofTokens?, hread]
  split <;> rfl

end Json

end RecordRules
