import ChainPropagation.Json
import ChainPropagation.Schedule
import ChainPropagation.SolveError

/-!
# JSON forms: sets, schedules, violations

Each type has a form, `toJson`, and a reader, `ofJson?`, which takes the form
back. A set of nodes is written as the ascending list of its ids, and read from
any list of ids that fit.
-/

namespace ChainPropagation

namespace NodeSet

def toJson (s : NodeSet) : Json := .list .nat s.toList

def ofJson? (j : Json) : Option NodeSet := do
  match ofIds (← j.list? Json.nat?) with
  | .ok s => some s
  | .error _ => none

end NodeSet

namespace Execution

def toJson (e : Execution) : Json := .obj [("node", .nat e.node), ("time", .nat e.time)]

def ofJson? (j : Json) : Option Execution := do
  let members ← j.record? ["node", "time"]
  return {
    node := ← Json.field? members "node" Json.nat?
    time := ← Json.field? members "time" Json.nat? }

end Execution

namespace Message

def toJson (m : Message) : Json :=
  .obj [("from", .nat m.sender), ("to", .nat m.receiver), ("time", .nat m.time),
    ("payload", m.payload.toJson)]

def ofJson? (j : Json) : Option Message := do
  let members ← j.record? ["from", "to", "time", "payload"]
  return {
    sender := ← Json.field? members "from" Json.nat?
    receiver := ← Json.field? members "to" Json.nat?
    time := ← Json.field? members "time" Json.nat?
    payload := ← Json.field? members "payload" NodeSet.ofJson? }

end Message

namespace Schedule

def toJson (s : Schedule) : Json :=
  .obj [("executions", .list Execution.toJson s.executions),
    ("messages", .list Message.toJson s.messages)]

def ofJson? (j : Json) : Option Schedule := do
  let members ← j.record? ["executions", "messages"]
  return {
    executions := ← Json.field? members "executions" (·.list? Execution.ofJson?)
    messages := ← Json.field? members "messages" (·.list? Message.ofJson?) }

end Schedule

namespace Rule

def toJson (r : Rule) : Json := .str r.name

def ofJson? (j : Json) : Option Rule := do named? (← j.word?)

end Rule

namespace Violation

def toJson (v : Violation) : Json :=
  .obj [("violation_type", v.rule.toJson), ("node", .nat v.node), ("message", .str v.message)]

def ofJson? (j : Json) : Option Violation := do
  let members ← j.record? ["violation_type", "node", "message"]
  return {
    rule := ← Json.field? members "violation_type" Rule.ofJson?
    node := ← Json.field? members "node" Json.nat?
    message := ← Json.field? members "message" Json.str? }

end Violation

end ChainPropagation
