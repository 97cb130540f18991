import RecordRules.Resolver
import RecordRules.Rule.Filter

/-!
# From drafts to filters

A draft becomes a filter when its operation resolves on its field and takes its arguments.  A
group keeps the conditions that become rules and drops the others; with none left it fails
itself, and so the group around it drops it.
-/

namespace RecordRules

namespace Rule

variable {α β : Type}

mutual

/-- Replace the leaves that pass `check` and prune the others, with the groups left empty. -/
def prune (check : α → Except Issue β) : Rule α → Except Issue (Rule β)
  | leaf a => (check a).map leaf
  | group id op invert conditions =>
    match pruneList check conditions with
    | [] => .error (.emptyGroup id)
    | kept => .ok (group id op invert kept)

def pruneList (check : α → Except Issue β) : List (Rule α) → List (Rule β)
  | [] => []
  | r :: rest =>
    match prune check r with
    | .ok kept => kept :: pruneList check rest
    | .error _ => pruneList check rest

end

end Rule

namespace Resolver

/-- The filter that a draft proposes.  A missing operation is told before a missing path. -/
def checkDraft (r : Resolver) (f : Draft) : Except Issue Filter :=
  match f.operation, f.path with
  | none, _ => .error (.missingOperation f.id)
  | some _, none => .error (.missingPath f.id)
  | some name, some path => do
    let op ← r.resolve name path
    checkArguments op f.arguments
    return ⟨f.id, path, name, f.arguments, f.invert.getD false⟩

def normalize (r : Resolver) (rule : Rule Draft) : Except Issue (Rule Filter) :=
  rule.prune r.checkDraft

/-- The number of filters that normalization keeps, none if it fails. -/
def validLeafCount (r : Resolver) (rule : Rule Draft) : Nat :=
  match r.normalize rule with
  | .ok kept => kept.leafCount
  | .error _ => 0

end Resolver

end RecordRules
