import RecordRules.Builtins
import RecordRules.Conformance.Checks
import RecordRules.Dataset
import RecordRules.Discovery.Queue
import RecordRules.Ids
import RecordRules.Normalization
import RecordRules.RuleTable.Edit
import RecordRules.RuleTable.Json
import RecordRules.Ty.Json
import RecordRules.Proofs.Rule.Nodes
import RecordRules.Proofs.RuleTable.Flattening
import RecordRules.Proofs.RuleTable.RoundTrip
import RecordRules.Proofs.Rule.Replacement
import RecordRules.Proofs.RuleTable.Edits
import RecordRules.Proofs.RuleTable.History
import RecordRules.Proofs.Decimal.Worth
import RecordRules.Proofs.Value.Equality
import RecordRules.Proofs.Ty.Admission
import RecordRules.Proofs.Registry
import RecordRules.Proofs.Resolver
import RecordRules.Proofs.Ty.Coverage
import RecordRules.Proofs.Ty.Paths
import RecordRules.Proofs.Ty.Preorder
import RecordRules.Proofs.Discovery
import RecordRules.Proofs.Discovery.Order
import RecordRules.Proofs.Builtins
import RecordRules.Proofs.Builtins.Order
import RecordRules.Proofs.Builtins.Equality
import RecordRules.Proofs.Predicate
import RecordRules.Proofs.Comparator
import RecordRules.Proofs.StableOrder.InPlace
import RecordRules.Proofs.Sorting
import RecordRules.Proofs.Comparator.Validation
import RecordRules.Proofs.Resolver.Arguments
import RecordRules.Proofs.Registry.Extension
import RecordRules.Proofs.Registry.InPlace
import RecordRules.Proofs.Honesty
import RecordRules.Proofs.Rule.Pruning
import RecordRules.Proofs.Normalization
import RecordRules.Proofs.Normalization.Fixpoints
import RecordRules.Proofs.Readiness
import RecordRules.Proofs.Rule.Reading
import RecordRules.Proofs.Compilation
import RecordRules.Proofs.Calendar.Text
import RecordRules.Proofs.Decimal.Text
import RecordRules.Proofs.Value.Json
import RecordRules.Proofs.Json.Members
import RecordRules.Proofs.Rule.Json
import RecordRules.Proofs.Document
import RecordRules.Proofs.Json.Lexing
import RecordRules.Proofs.Json.Reading
import RecordRules.Proofs.Document.Text
import RecordRules.Proofs.Value.Decoding
import RecordRules.Proofs.Rule.Decoding
import RecordRules.Proofs.Document.Decoding
import RecordRules.Proofs.Document.Filters
import RecordRules.Proofs.Document.Editing
import RecordRules.Proofs.Store
import RecordRules.Proofs.Store.History
import RecordRules.Proofs.RuleTable.Walk
import RecordRules.Proofs.RuleTable.Ancestry
import RecordRules.Proofs.RuleTable.Atomicity
import RecordRules.Proofs.RuleTable.Removal
import RecordRules.Proofs.StableOrder.Asking
import RecordRules.Proofs.Comparator.Lexicographic
import RecordRules.Proofs.Compilation.Rewriting
import RecordRules.Proofs.Selection
