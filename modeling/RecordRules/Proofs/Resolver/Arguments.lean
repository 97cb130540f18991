import RecordRules.Proofs.Resolver
import RecordRules.Proofs.Ty.Preorder

/-!
# Arguments as types

The arguments of a rule are constants, and the type of a constant is a literal.  A type accepts a
literal exactly if it admits its value, so it comes to the same whether arguments are checked one by
one or the tuple of their literals is held against the parameters (`Resolver.constants_agree`).
-/

namespace RecordRules

/-- A tuple type accepts the literals of some values when it admits the values, item by item. -/
theorem Ty.tuple_accepts_literals_iff {params : List Ty} {arguments : List Value} :
    (tuple params).accepts (tuple (arguments.map literal)) = true ↔
      List.Forall₂ (fun t v => t.admits v = true) params arguments := by
  rw [tuple_accepts_iff rfl]
  simp [List.forall₂_map_right_iff, accepts_literal_iff]

/-- A constant is accepted where it is admitted.  So arguments that are checked at all are taken if
and only if the parameters after the first accept their literals, one by one. -/
theorem Resolver.constants_agree :
    (∀ (t : Ty) (v : Value), t.accepts (.literal v) = true ↔ t.admits v = true) ∧
    ∀ (op : StandardOperation) (arguments : List Value), checkArguments op arguments = .ok () ↔
      op.skipValidate = true ∨
        (Ty.tuple op.signature.restParams).accepts (.tuple (arguments.map .literal)) = true := by
  refine ⟨fun t v => Ty.accepts_literal_iff, fun op arguments => ?_⟩
  rw [checkArguments_eq_ok_iff, Ty.tuple_accepts_literals_iff]

/-- A decimal is the same constant at any scale.  A whole number is another one, though it may stand
for decimals in general. -/
example : let two : Ty := .literal (.decimal ⟨false, 2, 0, by decide, by decide⟩)
    (Ty.optional two).accepts (.literal (.decimal ⟨false, 200, 2, by decide, by decide⟩)) = true ∧
      (Ty.optional two).accepts (.literal (.int 2)) = false ∧
      (Ty.optional .decimal).accepts (.literal (.int 2)) = true := by
  decide +kernel

end RecordRules
