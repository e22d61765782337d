import ChainPropagation.Interchange.Schedule
import ChainPropagation.Json.Number
import ChainPropagation.Options
import ChainPropagation.Outcome
import ChainPropagation.Traffic

/-!
# JSON forms: options, figures, outcomes

Options and the effort of a search may leave fields out, which then have their
standard values. An outcome is a pair of a status and, depending on it, a
solution or a reason.
-/

namespace ChainPropagation

namespace Options

def toJson (o : Options) : Json :=
  .obj [("node_limit", .option .nat o.maxNodes), ("time_limit_ms", .option .nat o.maxMilliseconds),
    ("workers", .nat o.workers), ("frontier_size", .nat o.frontier),
    ("warm_start_dives", .nat o.dives), ("seed", .nat o.seed),
    ("dive_send_probability", .real o.sendProbability)]

def ofJson? (j : Json) : Option Options := do
  let members ← j.partialRecord? ["node_limit", "time_limit_ms", "workers", "frontier_size",
    "warm_start_dives", "seed", "dive_send_probability"]
  let field := fun name default => Json.defaultField? members name default Json.nat?
  return {
    maxNodes := ← Json.optionalField? members "node_limit" Json.nat?
    maxMilliseconds := ← Json.optionalField? members "time_limit_ms" Json.nat?
    workers := ← field "workers" standard.workers
    frontier := ← field "frontier_size" standard.frontier
    dives := ← field "warm_start_dives" standard.dives
    seed := ← field "seed" standard.seed
    sendProbability := ← Json.defaultField? members "dive_send_probability"
      standard.sendProbability Json.float? }

end Options

namespace Effort

def toJson (s : Effort) : Json :=
  .obj [("nodes_explored", .nat s.explored), ("pruned_by_bound", .nat s.cutByBound),
    ("pruned_by_reachability", .nat s.cutByReach),
    ("solutions_found", .nat s.accepted), ("incumbent_updates", .nat s.improvements),
    ("elapsed_ms", .nat s.elapsed)]

def ofJson? (j : Json) : Option Effort := do
  let members ← j.partialRecord? ["nodes_explored", "pruned_by_bound", "pruned_by_reachability",
    "solutions_found", "incumbent_updates", "elapsed_ms"]
  let field := fun name => Json.defaultField? members name 0 Json.nat?
  return {
    explored := ← field "nodes_explored"
    cutByBound := ← field "pruned_by_bound"
    cutByReach := ← field "pruned_by_reachability"
    accepted := ← field "solutions_found"
    improvements := ← field "incumbent_updates"
    elapsed := ← field "elapsed_ms" }

end Effort

namespace Traffic

def toJson (t : Traffic) : Json :=
  .obj [("total_messages", .nat t.cost), ("generated_messages", .nat t.own),
    ("forwarded_messages", .nat t.forwarded),
    ("sends_by_node", .list .nat t.bySender), ("max_payload", .nat t.largestPayload),
    ("avg_payload", .real t.averagePayload), ("completion_step", .option .nat t.completion),
    ("last_execution", .option .nat t.latestExecution)]

def ofJson? (j : Json) : Option Traffic := do
  let members ← j.record? ["total_messages", "generated_messages", "forwarded_messages",
    "sends_by_node", "max_payload", "avg_payload", "completion_step", "last_execution"]
  let field := fun name => Json.field? members name Json.nat?
  return {
    cost := ← field "total_messages"
    own := ← field "generated_messages"
    forwarded := ← field "forwarded_messages"
    bySender := ← Json.field? members "sends_by_node" (·.list? Json.nat?)
    largestPayload := ← field "max_payload"
    averagePayload := ← Json.field? members "avg_payload" Json.float?
    completion := ← Json.optionalField? members "completion_step" Json.nat?
    latestExecution := ← Json.optionalField? members "last_execution" Json.nat? }

end Traffic

namespace Solution

def toJson (s : Solution) : Json :=
  .obj [("schedule", s.schedule.toJson), ("total_messages", .nat s.cost),
    ("proven_optimal", .bool s.provenOptimal), ("stats", s.effort.toJson)]

def ofJson? (j : Json) : Option Solution := do
  let members ← j.record? ["schedule", "total_messages", "proven_optimal", "stats"]
  return {
    schedule := ← Json.field? members "schedule" Schedule.ofJson?
    cost := ← Json.field? members "total_messages" Json.nat?
    provenOptimal := ← Json.field? members "proven_optimal" Json.bool?
    effort := ← Json.field? members "stats" Effort.ofJson? }

end Solution

namespace Infeasibility

def toJson (r : Infeasibility) : Json := .str r.name

def ofJson? (j : Json) : Option Infeasibility := do named? (← j.word?)

end Infeasibility

namespace Outcome

def toJson : Outcome → Json
  | feasible solution => .obj [("status", .str "feasible"), ("result", solution.toJson)]
  | infeasible reason => .obj [("status", .str "infeasible"), ("result", reason.toJson)]

/-- The outcome of a status and its result, given how to read the word for a
reason. -/
def ofParts? (status : String) (result : Json) (reasonWord? : Json → Option String) :
    Option Outcome := do
  match status with
  | "feasible" => return .feasible (← Solution.ofJson? result)
  | "infeasible" => return .infeasible (← Infeasibility.named? (← reasonWord? result))
  | _ => none

/-- Members of an object come in any order, so the result is kept until the
status is known, and an empty object is as good as `null` in it. In an array the
status comes first, as a plain string. -/
def ofJson? : Json → Option Outcome
  | .obj members => do
    let status ← Json.field? members "status" Json.word?
    ofParts? status (← Json.member? members "result") Json.looseWord?
  | .arr [status, result] => do ofParts? (← status.str?) result Json.word?
  | _ => none

end Outcome

end ChainPropagation
