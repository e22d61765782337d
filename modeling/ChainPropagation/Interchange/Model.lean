import ChainPropagation.Interchange.Schedule
import ChainPropagation.Model
import ChainPropagation.Possession

/-!
# JSON forms: problems and models

Readers look at the shape of a value only. Whether a model fits together is not
checked when it is read.
-/

namespace ChainPropagation

namespace Chain

def toJson (c : Chain) : Json := .obj [("nodes", .nat c.nodes)]

def ofJson? (j : Json) : Option Chain := do
  let members ← j.record? ["nodes"]
  return { nodes := ← Json.field? members "nodes" Json.nat? }

end Chain

namespace Ranks

def toJson (r : Ranks) : Json :=
  .obj [("ranks", .list .int r.values), ("dependencies", .list NodeSet.toJson r.awaited),
    ("order", .list .nat r.sequence)]

def ofJson? (j : Json) : Option Ranks := do
  let members ← j.record? ["ranks", "dependencies", "order"]
  return {
    values := ← Json.field? members "ranks" (·.list? Json.int32?)
    awaited := ← Json.field? members "dependencies" (·.list? NodeSet.ofJson?)
    sequence := ← Json.field? members "order" (·.list? Json.nat?) }

end Ranks

namespace Possession

def toJson (p : Possession) : Json :=
  .obj [("nodes", .nat p.nodes), ("horizon", .nat p.horizon),
    ("cells", .list NodeSet.toJson p.cells.toList)]

def ofJson? (j : Json) : Option Possession := do
  let members ← j.record? ["nodes", "horizon", "cells"]
  return {
    nodes := ← Json.field? members "nodes" Json.nat?
    horizon := ← Json.field? members "horizon" Json.nat?
    cells := (← Json.field? members "cells" (·.list? NodeSet.ofJson?)).toArray }

end Possession

namespace RuleBank

def toJson (bank : RuleBank) : Json := .obj [("rules", .list Rule.toJson bank.rules)]

def ofJson? (j : Json) : Option RuleBank := do
  let members ← j.record? ["rules"]
  return { rules := ← Json.field? members "rules" (·.list? Rule.ofJson?) }

end RuleBank

namespace Problem

def toJson (p : Problem) : Json :=
  .obj [("nodes", .nat p.nodes), ("horizon", .nat p.horizon), ("ranks", .list .int p.ranks)]

def ofJson? (j : Json) : Option Problem := do
  let members ← j.record? ["nodes", "horizon", "ranks"]
  return {
    nodes := ← Json.field? members "nodes" Json.nat?
    horizon := ← Json.field? members "horizon" Json.nat?
    ranks := ← Json.field? members "ranks" (·.list? Json.int32?) }

end Problem

namespace Model

def toJson (m : Model) : Json :=
  .obj [("topology", m.chain.toJson), ("ranks", m.ranks.toJson), ("horizon", .nat m.horizon),
    ("constraints", m.bank.toJson)]

def ofJson? (j : Json) : Option Model := do
  let members ← j.record? ["topology", "ranks", "horizon", "constraints"]
  return {
    chain := ← Json.field? members "topology" Chain.ofJson?
    ranks := ← Json.field? members "ranks" Ranks.ofJson?
    horizon := ← Json.field? members "horizon" Json.nat?
    bank := ← Json.field? members "constraints" RuleBank.ofJson? }

end Model

end ChainPropagation
