import ChainPropagation.Replay

/-!
# Message traffic

Figures about a schedule: how many messages there are, how many of them carry
just the sender's own result, who sends them, how much they carry, and when
both endpoints have everything. The last figure is read from the replay, so it
means something only if the schedule is valid.
-/

namespace ChainPropagation

/-- Figures about a schedule. -/
structure Traffic where
  cost : Nat
  /-- messages with just the sender's own result -/
  own : Nat
  /-- all other messages -/
  forwarded : Nat
  /-- messages sent by each node -/
  bySender : List Nat
  /-- results in the largest message -/
  largestPayload : Nat
  /-- results in a message on average; 0 without messages -/
  averagePayload : Float
  /-- the first time at which both endpoints hold every result -/
  completion : Option Nat
  latestExecution : Option Nat

namespace Traffic

/-- Whether there are at most so many messages, and both endpoints hold every
result at the latest at a given time. -/
def within (t : Traffic) (maxMessages maxStep : Nat) : Bool :=
  t.cost ≤ maxMessages && t.completion.any (· ≤ maxStep)

end Traffic

/-- The first time at which both endpoints hold every result in a table. -/
def Possession.completion (p : Possession) (results : NodeSet) (last : Nat) :
    Checked (Option Nat) :=
  (List.range (p.horizon + 1)).findM? fun time => do
    if !results.isSubset (← p.read time 0) then return false
    return results.isSubset (← p.read time last)

/-- The figures about a schedule. -/
def Model.traffic (m : Model) (s : Schedule) : Checked Traffic := do
  let own := (← s.messages.mapM Message.carriesOwnOnly).count true
  let sizes := s.messages.map (·.payload.size)
  let total := s.cost
  let table ← m.replay s
  return {
    cost := total
    own
    forwarded := total - own
    bySender := (List.range m.nodes).map fun node => s.messages.countP (·.sender == node)
    largestPayload := sizes.foldl max 0
    averagePayload :=
      if total = 0 then 0.0 else Float.ofNat (sizes.foldl (· + ·) 0) / Float.ofNat total
    completion := ← table.completion (← m.chain.resultSetChecked) (← m.chain.farEndChecked)
    latestExecution := s.latestExecution }

end ChainPropagation
