import RecordRules.Json.Members

/-!
# Engine settings

Every setting has a default, and a setting that does not exist is refused.
-/

namespace RecordRules

/-- What a filter does when an operation fails on a record. -/
inductive ErrorPolicy where
  | propagate
  /-- Take the fallback as the result for the record. -/
  | fallback
deriving DecidableEq

namespace ErrorPolicy

def name : ErrorPolicy → String
  | propagate => "propagate"
  | fallback => "fallback"

def ofName? : String → Option ErrorPolicy
  | "propagate" => some propagate
  | "fallback" => some fallback
  | _ => none

def ofJson? : Json → Option ErrorPolicy := Json.choice? .outer ofName?

end ErrorPolicy

structure FilterConfig where
  onError : ErrorPolicy
  fallback : Bool
deriving DecidableEq

structure DiscoveryConfig where
  /-- How many steps below the record discovery goes. -/
  maxDepth : Nat
deriving DecidableEq

structure EngineConfig where
  discovery : DiscoveryConfig
  filter : FilterConfig
deriving DecidableEq

namespace FilterConfig

def default : FilterConfig := ⟨.propagate, true⟩

def toJson (c : FilterConfig) : Json :=
  .obj [("on_error", .str c.onError.name), ("fallback", .bool c.fallback)]

def ofJson? (j : Json) : Option FilterConfig := do
  let members ← j.closedMembers? ["on_error", "fallback"]
  let onError ← Json.optional? "on_error" ErrorPolicy.ofJson? members
  let fallback ← Json.optional? "fallback" Json.asBool? members
  return ⟨onError.getD default.onError, fallback.getD default.fallback⟩

end FilterConfig

namespace DiscoveryConfig

def default : DiscoveryConfig := ⟨1⟩

def toJson (c : DiscoveryConfig) : Json := .obj [("max_depth", .ofNat c.maxDepth)]

def ofJson? (j : Json) : Option DiscoveryConfig := do
  let members ← j.closedMembers? ["max_depth"]
  let maxDepth ← Json.optional? "max_depth" Json.asNat? members
  return ⟨maxDepth.getD default.maxDepth⟩

end DiscoveryConfig

namespace EngineConfig

def default : EngineConfig := ⟨.default, .default⟩

def toJson (c : EngineConfig) : Json :=
  .obj [("discovery", c.discovery.toJson), ("filter", c.filter.toJson)]

def ofJson? (j : Json) : Option EngineConfig := do
  let members ← j.closedMembers? ["discovery", "filter"]
  let discovery ← Json.optional? "discovery" DiscoveryConfig.ofJson? members
  let filter ← Json.optional? "filter" FilterConfig.ofJson? members
  return ⟨discovery.getD .default, filter.getD .default⟩

end EngineConfig

end RecordRules
