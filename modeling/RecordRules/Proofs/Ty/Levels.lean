import Mathlib.Data.List.Flatten
import Mathlib.Data.List.Nodup
import RecordRules.Discovery
import RecordRules.Proofs.KeyMap.Listing
import RecordRules.Proofs.Ty.Admission

/-!
# The fields of a schema

A list of names leads from a type to a field below it, through record types only.  The fields that
are listed up to a depth are those to which at most as many names lead (`mem_fieldsUpTo`), and
where no record type declares a name twice, each of them is listed once (`nodup_fieldsUpTo`) and is
found by its path (`atPath?_of_leadsTo`).
-/

namespace RecordRules

/-! ## Levels -/

namespace Levels

variable {α : Type}

/-- The nodes of one level, none below the last. -/
def level (k : Nat) (ls : List (List α)) : List α := ls[k]?.getD []

@[simp] theorem level_nil (k : Nat) : level k ([] : List (List α)) = [] := rfl

@[simp] theorem level_zero (l : List α) (ls : List (List α)) : level 0 (l :: ls) = l := rfl

@[simp] theorem level_succ (k : Nat) (l : List α) (ls : List (List α)) :
    level (k + 1) (l :: ls) = level k ls := rfl

/-- Levels are merged one by one. -/
theorem level_merge (k : Nat) (ls ms : List (List α)) :
    level k (merge ls ms) = level k ls ++ level k ms := by
  induction ls generalizing k ms with
  | nil => rfl
  | cons l ls ih =>
    cases ms with
    | nil => exact (List.append_nil _).symm
    | cons m ms =>
      cases k with
      | zero => rfl
      | succ k => exact ih k ms

/-- The first so many levels are read off one after the other. -/
theorem flatten_take (n : Nat) (ls : List (List α)) :
    (ls.take n).flatten = (List.range n).flatMap (level · ls) := by
  induction n generalizing ls with
  | zero => rfl
  | succ n ih =>
    rw [List.range_succ_eq_map, List.flatMap_cons, List.flatMap_map]
    cases ls with
    | nil => simp
    | cons l ls => simp [ih]

end Levels

namespace Ty

open Levels

variable {t u : Ty} {k : Nat} {path : Path} {names : List String}

/-! ## Fields below a type -/

/-- Each name is that of a field of the record type to which the names before it lead. -/
inductive LeadsTo : Ty → List String → Ty → Prop where
  | root (t : Ty) : LeadsTo t [] t
  | field {fields : List (String × Ty)} {n : String} {t u : Ty} {names : List String} :
      (n, t) ∈ fields → LeadsTo t names u → LeadsTo (record fields) (n :: names) u

/-- No names lead no further than to the type itself. -/
theorem leadsTo_nil_iff : t.LeadsTo [] u ↔ u = t := by
  constructor
  · rintro ⟨⟩
    rfl
  · rintro rfl
    exact .root u

/-- A name leads to a field, from which the other names lead on. -/
theorem leadsTo_cons_iff {n : String} :
    t.LeadsTo (n :: names) u ↔
      ∃ fields m, t = record fields ∧ (n, m) ∈ fields ∧ m.LeadsTo names u := by
  constructor
  · rintro (_ | ⟨hmem, hu⟩)
    exact ⟨_, _, rfl, hmem, hu⟩
  · rintro ⟨fields, m, rfl, hmem, hu⟩
    exact .field hmem hu

/-! ## The fields of one level -/

@[simp] theorem level_levels_zero (path : Path) (t : Ty) :
    level 0 (t.levels path) = [(path, t)] := by
  cases t <;> simp [levels]

/-- The levels below several fields are those below each, one field after the other. -/
theorem level_levelsOfFields (k : Nat) (path : Path) (fields : List (String × Ty)) :
    level k (levelsOfFields path fields) =
      fields.flatMap fun f => level k (f.2.levels (path.child (.field f.1))) := by
  induction fields with
  | nil => simp [levelsOfFields]
  | cons f rest ih => rw [levelsOfFields, level_merge, ih, List.flatMap_cons]

/-- A level below a record type is the one above it below the fields. -/
@[simp] theorem level_levels_record_succ (k : Nat) (path : Path) (fields : List (String × Ty)) :
    level (k + 1) ((record fields).levels path) =
      fields.flatMap fun f => level k (f.2.levels (path.child (.field f.1))) := by
  rw [levels, level_succ, level_levelsOfFields]

/-- There is nothing below a type without fields. -/
theorem level_levels_succ_of_ne (h : ∀ fields, t ≠ record fields) (k : Nat) (path : Path) :
    level (k + 1) (t.levels path) = [] := by
  cases t with
  | record fields => exact absurd rfl (h fields)
  | _ => simp [levels]

/-- On a level stand the fields to which as many names lead. -/
theorem mem_level_levels {x : Path × Ty} :
    x ∈ level k (t.levels path) ↔
      ∃ names, names.length = k ∧ x.1 = path ++ Path.fields names ∧ t.LeadsTo names x.2 := by
  induction k generalizing t path with
  | zero =>
    rw [level_levels_zero, List.mem_singleton, Prod.ext_iff]
    constructor
    · rintro ⟨hpath, htype⟩
      exact ⟨[], rfl, by simpa [Path.fields] using hpath, leadsTo_nil_iff.2 htype⟩
    · rintro ⟨names, hlength, hpath, htype⟩
      obtain rfl := List.length_eq_zero_iff.1 hlength
      exact ⟨by simpa [Path.fields] using hpath, leadsTo_nil_iff.1 htype⟩
  | succ k ih =>
    -- only a record type has anything on the levels below its own
    by_cases ht : ∃ fields, t = record fields
    · obtain ⟨fields, rfl⟩ := ht
      rw [level_levels_record_succ, List.mem_flatMap]
      constructor
      · rintro ⟨⟨n, m⟩, hmem, hx⟩
        obtain ⟨names, rfl, hpath, htype⟩ := ih.1 hx
        exact ⟨n :: names, rfl, by simpa [Path.fields, Path.child] using hpath, .field hmem htype⟩
      · rintro ⟨names, hlength, hpath, htype⟩
        obtain _ | ⟨n, names⟩ := names
        · cases hlength
        obtain ⟨fields, m, heq, hmem, htype⟩ := leadsTo_cons_iff.1 htype
        obtain rfl := Ty.record.inj heq
        refine ⟨(n, m), hmem, ih.2 ⟨names, Nat.succ.inj hlength, ?_, htype⟩⟩
        simpa [Path.fields, Path.child] using hpath
    · rw [level_levels_succ_of_ne (not_exists.1 ht)]
      simp only [List.not_mem_nil, false_iff]
      rintro ⟨names, hlength, -, htype⟩
      obtain _ | ⟨n, names⟩ := names
      · cases hlength
      obtain ⟨fields, m, rfl, -⟩ := leadsTo_cons_iff.1 htype
      exact ht ⟨fields, rfl⟩

/-- The fields that are listed are those to which at most `maxDepth` names lead. -/
theorem mem_fieldsUpTo {schema : Ty} {maxDepth : Nat} {x : Path × Ty} :
    x ∈ schema.fieldsUpTo maxDepth ↔
      ∃ names, names.length ≤ maxDepth ∧ x.1 = Path.fields names ∧ schema.LeadsTo names x.2 := by
  simp only [fieldsUpTo, flatten_take, List.mem_flatMap, List.mem_range, mem_level_levels,
    List.nil_append, Nat.lt_succ_iff]
  constructor
  · rintro ⟨_, hk, names, rfl, hpath, htype⟩
    exact ⟨names, hk, hpath, htype⟩
  · rintro ⟨names, hlength, hpath, htype⟩
    exact ⟨_, hlength, names, rfl, hpath, htype⟩

/-! ## Names that are declared once -/

mutual

/-- No record type in the type declares a name twice. -/
def namesDistinct : Ty → Bool
  | union members => allNamesDistinct members
  | list element => namesDistinct element
  | tuple items => allNamesDistinct items
  | record fields => decide (fields.map Prod.fst).Nodup && fieldsNamesDistinct fields
  | _ => true

def allNamesDistinct : List Ty → Bool
  | [] => true
  | t :: rest => namesDistinct t && allNamesDistinct rest

def fieldsNamesDistinct : List (String × Ty) → Bool
  | [] => true
  | (_, t) :: rest => namesDistinct t && fieldsNamesDistinct rest

end

/-- What is asked of the names in fields is asked of those in the type of each field. -/
theorem fieldsNamesDistinct_iff {fields : List (String × Ty)} :
    fieldsNamesDistinct fields = true ↔ ∀ f ∈ fields, f.2.namesDistinct = true := by
  induction fields with
  | nil => simp [fieldsNamesDistinct]
  | cons f rest ih => rw [fieldsNamesDistinct, Bool.and_eq_true, ih, List.forall_mem_cons]

/-- A record type declares no name twice, and neither do the types of its fields. -/
theorem namesDistinct_record_iff {fields : List (String × Ty)} :
    (record fields).namesDistinct = true ↔
      (fields.map Prod.fst).Nodup ∧ ∀ f ∈ fields, f.2.namesDistinct = true := by
  rw [namesDistinct, Bool.and_eq_true, decide_eq_true_iff, fieldsNamesDistinct_iff]

/-- A field is found by its path. -/
theorem atPath?_of_leadsTo (ht : t.namesDistinct = true) (hu : t.LeadsTo names u) :
    t.atPath? (Path.fields names) = some u := by
  induction hu with
  | root t => rfl
  | @field fields n t u names hmem _ ih =>
    obtain ⟨hnodup, hfields⟩ := namesDistinct_record_iff.1 ht
    have hchild : (record fields).child? (.field n) = some t := by
      rw [child?]
      exact Entries.get?_of_mem_of_nodup hnodup hmem
    rw [Path.fields, List.map_cons, atPath?, hchild]
    exact ih (hfields _ hmem)

/-- With distinct names no path occurs twice on a level, as the names can be read off the path. -/
theorem nodup_level_levels (ht : t.namesDistinct = true) :
    ((level k (t.levels path)).map Prod.fst).Nodup := by
  induction k generalizing t path with
  | zero => simp
  | succ k ih =>
    by_cases hrecord : ∃ fields, t = record fields
    · obtain ⟨fields, rfl⟩ := hrecord
      obtain ⟨hnodup, hfields⟩ := namesDistinct_record_iff.1 ht
      rw [level_levels_record_succ, List.map_flatMap, List.nodup_flatMap]
      refine ⟨fun f hf => ih (hfields f hf), (List.pairwise_map.1 hnodup).imp ?_⟩
      -- paths that part at this record are different
      intro f g hne p hf hg
      obtain ⟨x, hx, rfl⟩ := List.mem_map.1 hf
      obtain ⟨y, hy, hxy⟩ := List.mem_map.1 hg
      obtain ⟨_, -, hpx, -⟩ := mem_level_levels.1 hx
      obtain ⟨_, -, hpy, -⟩ := mem_level_levels.1 hy
      rw [hpx, hpy] at hxy
      simp only [Path.child, List.append_assoc, List.append_cancel_left_eq, List.singleton_append,
        List.cons.injEq, Step.field.injEq] at hxy
      exact hne hxy.1.symm
    · rw [level_levels_succ_of_ne (not_exists.1 hrecord)]
      exact List.nodup_nil

/-- Each field is listed once. -/
theorem nodup_fieldsUpTo {schema : Ty} (hschema : schema.namesDistinct = true) (maxDepth : Nat) :
    ((schema.fieldsUpTo maxDepth).map Prod.fst).Nodup := by
  rw [fieldsUpTo, flatten_take, List.map_flatMap, List.nodup_flatMap]
  refine ⟨fun k _ => nodup_level_levels hschema, List.nodup_range.imp ?_⟩
  -- paths of different levels have different lengths
  intro j k hjk p hj hk
  obtain ⟨x, hx, rfl⟩ := List.mem_map.1 hj
  obtain ⟨y, hy, hxy⟩ := List.mem_map.1 hk
  obtain ⟨_, rfl, hpx, -⟩ := mem_level_levels.1 hx
  obtain ⟨_, rfl, hpy, -⟩ := mem_level_levels.1 hy
  rw [hpx, hpy] at hxy
  exact hjk (by simpa [Path.fields] using congrArg List.length hxy.symm)

end Ty

end RecordRules
