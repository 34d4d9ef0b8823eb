import BehaviorTree.NodeKind
import BehaviorTree.Reference.Json

/-!
# Node kinds as document values

A kind is an object tagged by `type`; the fields of its configuration stand
beside the tag.
-/

namespace BehaviorTree

namespace NodeKind

/-- The value of the tag. -/
def tag : NodeKind → String
  | root => "root"
  | sequence => "sequence"
  | selector => "selector"
  | memSequence => "mem_sequence"
  | memSelector => "mem_selector"
  | probSequence => "prob_sequence"
  | probSelector => "prob_selector"
  | parallel _ => "parallel"
  | inverter => "inverter"
  | succeeder => "succeeder"
  | failer => "failer"
  | repeater _ => "repeater"
  | limiter _ => "limiter"
  | allocator _ => "allocator"
  | verifier _ => "verifier"
  | echoDecorator _ => "echo_decorator"
  | condition _ => "condition"
  | command _ => "command"
  | transition _ => "transition"
  | echoLeaf _ _ => "echo_leaf"

/-- The fields beside the tag. -/
def configFields : NodeKind → List (String × Json)
  | parallel spec =>
    [("primary_child", .ofOption (fun index => .ofNat index.toNat) spec.primaryChild),
     ("req_successes",
       .ofOption (fun count => .ofNat count.toNat) spec.requiredSuccesses),
     ("req_failures",
       .ofOption (fun count => .ofNat count.toNat) spec.requiredFailures),
     ("default_success", .bool spec.defaultSuccess)]
  | repeater repeats => [("repeats", .ofNat repeats.toNat)]
  | limiter limit => [("limit", .ofNat limit.toNat)]
  | allocator resources => [("resources", .arr (resources.map .str))]
  | verifier predicate => [("predicate", .str predicate)]
  | echoDecorator message => [("message", .str message)]
  | condition predicate => [("predicate", .str predicate)]
  | command action => [("action", .str action)]
  | transition target => [("target", .ofOption TreeSelector.toJson target)]
  | echoLeaf message succeed =>
    [("message", .str message), ("succeed", .bool succeed)]
  | _ => []

def toJson (kind : NodeKind) : Json :=
  .ofFields (("type", .str kind.tag) :: kind.configFields)

/-- The names of the fields beside a tag. -/
def fieldNames : String → Option (List String)
  | "root" | "sequence" | "selector" | "mem_sequence" | "mem_selector"
  | "prob_sequence" | "prob_selector" | "inverter" | "succeeder"
  | "failer" => some []
  | "parallel" =>
    some ["primary_child", "req_successes", "req_failures", "default_success"]
  | "repeater" => some ["repeats"]
  | "limiter" => some ["limit"]
  | "allocator" => some ["resources"]
  | "verifier" | "condition" => some ["predicate"]
  | "echo_decorator" => some ["message"]
  | "command" => some ["action"]
  | "transition" => some ["target"]
  | "echo_leaf" => some ["message", "succeed"]
  | _ => none

/-- Every field of a Parallel may be left out. -/
def parallelOfRecord (record : Record) : Option ParallelSpec := do
  return {
    primaryChild :=
      ← record.withDefault "primary_child" none (·.asOption Json.asUInt64)
    requiredSuccesses :=
      ← record.withDefault "req_successes" none (·.asOption Json.asUInt32)
    requiredFailures :=
      ← record.withDefault "req_failures" none (·.asOption Json.asUInt32)
    defaultSuccess := ← record.withDefault "default_success" true Json.asBool }

def ofTagged (tag : String) (record : Record) : Option NodeKind :=
  match tag with
  | "root" => some root
  | "sequence" => some sequence
  | "selector" => some selector
  | "mem_sequence" => some memSequence
  | "mem_selector" => some memSelector
  | "prob_sequence" => some probSequence
  | "prob_selector" => some probSelector
  | "parallel" => (parallelOfRecord record).map parallel
  | "inverter" => some inverter
  | "succeeder" => some succeeder
  | "failer" => some failer
  | "repeater" => (record.required "repeats" Json.asUInt32).map repeater
  | "limiter" => (record.required "limit" Json.asUInt32).map limiter
  | "allocator" =>
    (record.required "resources" (Json.asArray Json.asString)).map allocator
  | "verifier" => (record.required "predicate" Json.asString).map verifier
  | "echo_decorator" => (record.required "message" Json.asString).map echoDecorator
  | "condition" => (record.required "predicate" Json.asString).map condition
  | "command" => (record.required "action" Json.asString).map command
  | "transition" => (record.nullable "target" TreeSelector.ofJson).map transition
  | "echo_leaf" => do
    let message ← record.required "message" Json.asString
    let succeed ← record.required "succeed" Json.asBool
    return echoLeaf message succeed
  | _ => none

def ofJson (value : Json) : Option NodeKind := do
  let (tag, record) ← value.asVariant "type" fieldNames
  ofTagged tag record

end NodeKind

end BehaviorTree
