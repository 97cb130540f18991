import RecordRules.Dataset
import RecordRules.Normalization
import RecordRules.Proofs.Builtins.Order

/-!
# The ready-made equality

`equals` holds of values that tie, and of none that do not compare.  On every type it is symmetric
and transitive.  Lists and records do not even compare with themselves.  The guard keeps them out
as types but lets them in as literals, so `equals` is an equality exactly on those types of the
guard that have no such literal (`Builtins.equals_equivalence_iff`).
-/

namespace RecordRules

namespace Value

variable {u v w : Value}

/-! ## Ties -/

/-- Ties may be read either way. -/
theorem compares_eq_comm : v.Compares w .eq ↔ w.Compares v .eq := compares_iff_swap

/-- Equal values tie, if they compare at all. -/
theorem compares_eq_of_beq (h : (v == w) = true) (hv : v.isScalar = true) : v.Compares w .eq := by
  cases v with
  | decimal d =>
    obtain ⟨e, rfl, hworth⟩ := decimal_beq_iff.1 h
    have hnumbers : (decimal d).Compares (decimal e) (compare d.worth e.worth) := .numbers rfl rfl
    rwa [compare_eq_iff_eq.2 hworth] at hnumbers
  | dateTime t =>
    obtain ⟨t', rfl, hinstant⟩ := dateTime_beq_iff.1 h
    have hdateTimes : (dateTime t).Compares (dateTime t') (compare t.instant t'.instant) :=
      .dateTimes t t'
    rwa [compare_eq_iff_eq.2 hinstant] at hdateTimes
  | null | bool | int | text | date =>
    -- these are equal only if they are the same
    simp only [null_beq_iff, bool_beq_iff, int_beq_iff, text_beq_iff, date_beq_iff] at h
    subst h
    exact compares_self_iff.2 rfl
  | list | record => cases hv

end Value

/-! ## Literals without parts -/

namespace Ty

variable {t : Ty} {v : Value}

/-- No literal in the type, by itself or as a member, is a list or a record. -/
def literalsScalar (t : Ty) : Bool :=
  t.alternatives.all fun
    | literal v => v.isScalar
    | _ => true

/-- The literals of a type are those among its alternatives. -/
theorem literalsScalar_iff :
    t.literalsScalar = true ↔ ∀ v, literal v ∈ t.alternatives → v.isScalar = true := by
  rw [literalsScalar, List.all_eq_true]
  constructor
  · intro h v hv
    exact h _ hv
  · intro h x hx
    cases x with
    | literal v => exact h v hx
    | _ => rfl

/-- A union is scalar when all of its members are. -/
theorem allScalar_iff {ts : List Ty} : allScalar ts = true ↔ ∀ t ∈ ts, t.isScalar = true := by
  induction ts with
  | nil => simp [allScalar]
  | cons t rest ih => rw [allScalar, Bool.and_eq_true, ih, List.forall_mem_cons]

/-- Every alternative of a scalar type is scalar. -/
theorem isScalar_of_mem_alternatives {x : Ty} (ht : t.isScalar = true)
    (hx : x ∈ t.alternatives) : x.isScalar = true := by
  induction t with
  | union members ih =>
    obtain ⟨m, hm, hx⟩ := mem_alternatives_union_iff.1 hx
    rw [isScalar, Bool.and_eq_true, allScalar_iff] at ht
    exact ih m hm (ht.2 m hm) hx
  | _ =>
    obtain rfl := List.mem_singleton.1 hx
    exact ht

/-- The values of a scalar type are no lists or records, as far as they are none of literals. -/
theorem isScalar_of_admits (ht : t.isScalar = true) (hliterals : t.literalsScalar = true)
    (hv : t.admits v = true) : v.isScalar = true := by
  obtain ⟨x, hx, hv⟩ := admits_iff_exists_alternative.1 hv
  have hunion := not_isUnion_of_mem_alternatives hx
  have hscalar := isScalar_of_mem_alternatives ht hx
  cases v with
  | list | record =>
    cases x with
    | literal u =>
      have huv := literal_admits_iff.1 hv
      have hu := literalsScalar_iff.1 hliterals u hx
      cases u with
      | list | record => cases hu
      | _ => simp at huv
    | union => cases hunion
    | any | list | tuple | record => cases hscalar
    | _ => cases hv
  | _ => rfl

end Ty

/-! ## The guard of `equals` -/

namespace Builtins

variable {g : GenericOperation} {t : Ty}

/-- Equality is true where values compare as equal, and false where they do not compare. -/
theorem run_equals (hg : equals = .generic g) (v w : Value) :
    g.run [v, w] = .ok (.bool (v.cmp? w == some .eq)) := by
  obtain rfl := Operation.generic.inj hg
  rfl

/-- Equality holds of values that compare as equal. -/
theorem run_equals_iff (hg : equals = .generic g) {v w : Value} :
    g.run [v, w] = .ok (.bool true) ↔ v.Compares w .eq := by
  rw [run_equals hg, ← Value.cmp?_eq_some_iff]
  simp

/-- On a type that the guard of `equals` accepts, `equals` answers, the same both ways, and it is
transitive.  Values are equal to themselves, and those that are the same are equal, exactly if no
literal of the type is a list or a record. -/
theorem equals_equivalence_iff (hg : equals = .generic g) (ht : g.guard t = true) :
    (∀ v w, t.admits v = true → t.admits w = true →
      ∃ b, g.run [v, w] = .ok (.bool b) ∧ g.run [w, v] = .ok (.bool b)) ∧
    (∀ u v w, t.admits u = true → t.admits v = true → t.admits w = true →
      g.run [u, v] = .ok (.bool true) → g.run [v, w] = .ok (.bool true) →
      g.run [u, w] = .ok (.bool true)) ∧
    (t.literalsScalar = true ↔ ∀ v, t.admits v = true → g.run [v, v] = .ok (.bool true)) ∧
    (t.literalsScalar = true ↔ ∀ v w, t.admits v = true → t.admits w = true →
      (v == w) = true → g.run [v, w] = .ok (.bool true)) := by
  have hscalar : t.isScalar = true := by
    obtain rfl := Operation.generic.inj hg
    exact ht
  -- a literal admits its own value, so a value that is not equal to itself would be one of the type
  have hself : (∀ v, t.admits v = true → v.Compares v .eq) → t.literalsScalar = true := by
    intro h
    refine Ty.literalsScalar_iff.2 fun v hv => Value.compares_self_iff.1 (h v ?_)
    exact Ty.admits_iff_exists_alternative.2 ⟨_, hv, Ty.literal_admits_iff.2 v.beq_refl⟩
  refine ⟨fun v w _ _ => ?_, ?_, ?_, ?_⟩
  · have hcomm : (v.cmp? w == some .eq) = (w.cmp? v == some .eq) := by
      rw [Bool.eq_iff_iff, beq_iff_eq, beq_iff_eq, Value.cmp?_eq_some_iff, Value.cmp?_eq_some_iff]
      exact Value.compares_eq_comm
    exact ⟨_, run_equals hg v w, hcomm ▸ run_equals hg w v⟩
  · intro u v w _ _ _ huv hvw
    rw [run_equals_iff hg] at huv hvw ⊢
    exact huv.trans_then rfl hvw rfl
  · simp only [run_equals_iff hg]
    refine ⟨fun h v hv => ?_, hself⟩
    exact Value.compares_self_iff.2 (Ty.isScalar_of_admits hscalar h hv)
  · simp only [run_equals_iff hg]
    constructor
    · intro h v w hv _ hvw
      exact Value.compares_eq_of_beq hvw (Ty.isScalar_of_admits hscalar h hv)
    · intro h
      exact hself fun v hv => h v v hv hv v.beq_refl

/-- A number that may be missing, and 2 written in three ways. -/
theorem equals_equivalence_iff_numbers : ∃ (g : GenericOperation) (t : Ty) (u v w : Value),
    equals = .generic g ∧ t = .union [.literal (.int 2), .optional .decimal] ∧
    u = .int 2 ∧ v = .decimal ⟨false, 20, 1, by decide, by decide⟩ ∧
    w = .decimal ⟨false, 200, 2, by decide, by decide⟩ ∧ g.guard t = true ∧
    (t.admits u = true ∧ t.admits v = true ∧ t.admits w = true) ∧
    (g.run [u, v] = .ok (.bool true) ∧ g.run [v, w] = .ok (.bool true)) ∧
    g.run [u, w] = .ok (.bool true) ∧ (∃ b, g.run [u, w] = .ok b ∧ g.run [w, u] = .ok b) ∧
    t.literalsScalar = true ∧ (v == w) = true ∧ g.run [w, w] = .ok (.bool true) ∧
    g.run [w, v] = .ok (.bool true) := by
  obtain ⟨g, hg⟩ : ∃ g, equals = .generic g := ⟨_, rfl⟩
  let t : Ty := .union [.literal (.int 2), .optional .decimal]
  let u : Value := .int 2
  let v : Value := .decimal ⟨false, 20, 1, by decide, by decide⟩
  let w : Value := .decimal ⟨false, 200, 2, by decide, by decide⟩
  have hguard : g.guard t = true := by
    obtain rfl := Operation.generic.inj hg
    rfl
  have huv : g.run [u, v] = .ok (.bool true) := run_equals hg u v
  have hvw : g.run [v, w] = .ok (.bool true) := run_equals hg v w
  have hwv : (w == v) = true := rfl
  obtain ⟨hboth, htrans, hself, hsame⟩ := equals_equivalence_iff hg hguard
  obtain ⟨b, hb⟩ := hboth u w rfl rfl
  exact ⟨g, t, u, v, w, hg, rfl, rfl, rfl, rfl, hguard, ⟨rfl, rfl, rfl⟩, ⟨huv, hvw⟩,
    htrans u v w rfl rfl rfl huv hvw, ⟨_, hb⟩, rfl, rfl, hself.1 rfl w rfl,
    hsame.1 rfl w v rfl rfl hwv⟩

end Builtins

namespace Resolver

/-- The guard lets `equals` apply to a field that holds one list, which it does not find there. -/
theorem exists_filterData_equals_list : ∃ (r : Resolver) (f : Filter) (record : Value),
    Registry.builtinFilters = .ok r.registry ∧
    r.schema = .record [("x", .literal (.list [.int 1, .int 2]))] ∧
    (Ty.literal (.list [.int 1, .int 2])).isScalar = true ∧
    f = ⟨"f", [.field "x"], "equals", [.list [.int 1, .int 2]], false⟩ ∧
    record = .recordOf [("x", .list [.int 1, .int 2])] ∧ r.schema.admits record = true ∧
    r.Resolves f ∧ r.filterData (some (.leaf f)) .default [record] = .ok [] := by
  obtain ⟨registry, hregistry⟩ : ∃ registry, Registry.builtinFilters = .ok registry := ⟨_, rfl⟩
  let t : Ty := .literal (.list [.int 1, .int 2])
  let r : Resolver := ⟨registry, .record [("x", t)], Ty.accepts⟩
  have hget : registry.get? "equals" = some Builtins.equals :=
    Registry.get?_of_ofList hregistry (.head _)
  have hrole : registry.role = .filter := (Registry.ofList_eq_ok hregistry).2.1
  have hpath : r.schema.atPath? [.field "x"] = some t := rfl
  obtain ⟨⟨name, signature, run, skip, notes, origin⟩, hop, rfl, rfl, rfl, rfl⟩ :=
    r.exists_resolve_comparison rfl hget hpath rfl (by rw [hrole]; rfl)
  let f : Filter := ⟨"f", [.field "x"], "equals", [.list [.int 1, .int 2]], false⟩
  have hf : r.Resolves f := ⟨_, hop, rfl⟩
  refine ⟨r, f, _, hregistry, rfl, rfl, rfl, rfl, rfl, hf, ?_⟩
  rw [filterData, compileFilter, Rule.traverse, bind_eq_ok_iff.2 ⟨_, hop, rfl⟩]
  rfl

end Resolver

end RecordRules
