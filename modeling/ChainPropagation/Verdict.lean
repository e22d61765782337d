import ChainPropagation.Replay

/-!
# The verdict on a schedule

Every rule lists the breaches of it, given a model, a schedule and a table that
says who holds what when. The verdict of a model is the list of all breaches of
its rules, rule by rule; a schedule is valid if there are none. `Model.judge`
takes the table on trust from outside, `Model.verdict` makes it by replaying
the schedule.

Rules look into ranks and tables that may be too short if they come from
outside. Where a rule looks at a whole table, the size is checked beforehand
and the rule itself is a total function.
-/

namespace ChainPropagation

namespace Model

variable (m : Model) (s : Schedule) (p : Possession)

/-! ## Who executes when -/

/-- What is wrong with an execution by itself. -/
def executionBreaches (e : Execution) : List Breach :=
  if m.nodes ≤ e.node then [.unknownExecution e.node]
  else
    (if e.node = 0 ∨ e.node = m.chain.farEnd then [.endpointExecution e.node] else []) ++
      (if m.horizon < e.time then [.lateExecution e.node e.time m.horizon] else [])

/-- A node that does not execute exactly once. -/
def countBreach (node : Nat) : Option Breach :=
  let count := s.executions.countP (·.node == node)
  if count = 1 then none else some (.executionCount node count)

/-- Breaches of `Rule.taskExecution`. There has to be room for a number for each
node. -/
def taskBreaches : Checked (List Breach) := do
  storing m.nodes
  let inner ← m.chain.innerChecked
  return s.executions.flatMap m.executionBreaches ++ inner.filterMap (countBreach s)

/-- A node that executes too early, or not at once if it waits for nothing. -/
def enablementBreach (e : Execution) : Checked (List Breach) := do
  if !(← m.chain.isInnerChecked e.node) || m.horizon < e.time then return []
  if (← m.ranks.rankOf e.node) = 0 then
    return if e.time = 0 then [] else [.rankZeroLate e.node e.time]
  let missing := (← m.ranks.awaitedBy e.node) \ (← p.read e.time e.node)
  return if missing.isEmpty then [] else [.missingResults e.node e.time missing]

/-- Breaches of `Rule.rankEnablement`. -/
def enablementBreaches : Checked (List Breach) := do
  return (← s.executions.mapM (m.enablementBreach p)).flatten

/-! ## Who holds what -/

/-- When each node executes first. -/
def firstTimes : Array (Option Nat) := ((List.range m.nodes).map s.timeOf).toArray

/-- What a node should hold at `time + 1`: what it held before, what is
delivered, and its own result if it executes. -/
def expectedNext (times : Array (Option Nat)) (sent : List Message) (time node : Nat) :
    NodeSet :=
  let received := (sent.filter (·.receiver == node)).foldl (· ∪ ·.payload) (p.cell time node)
  if times.getD node none = some (time + 1) then received.insert node else received

/-- The nodes whose cell at `time + 1` does not follow from the row before. -/
def propagationBreachesAt (times : Array (Option Nat)) (time : Nat) : List Breach :=
  let sent := s.sentAt time
  (List.range m.nodes).filterMap fun node =>
    let expected := expectedNext p times sent time node
    let actual := p.cell (time + 1) node
    if actual = expected then none else some (.wrongPossession node (time + 1) actual expected)

/-- Whether the table has a cell for every node and time. -/
def tableCovers : Bool := m.nodes * (m.horizon + 1) ≤ p.cells.size

/-- A node that does not fit into a set and executes first at one of the times
from `low` to `high`. -/
def oversized? (low high : Nat) : Option Nat :=
  (List.range' NodeSet.capacity (m.nodes - NodeSet.capacity)).find? fun node =>
    match s.timeOf node with
    | some time => low ≤ time && time ≤ high
    | none => false

/-- Breaches of `Rule.propagation`. There has to be room for two words for each
node, even if no time follows another one. -/
def propagationBreaches : Checked (List Breach) := do
  storing (2 * m.nodes)
  if m.horizon = 0 then return []
  if !m.tableCovers p then throw (.outOfBounds (m.nodes * (m.horizon + 1)) p.cells.size)
  match m.oversized? s 1 m.horizon with
  | some node => throw (.idTooLarge node)
  | none =>
    let times := m.firstTimes s
    return (List.range m.horizon).flatMap (m.propagationBreachesAt s p times)

/-- What is wrong with one cell: ids that are no results, or the node's own
result without its execution or the other way round. -/
def cellBreaches (results : NodeSet) (times : Array (Option Nat)) (time node : Nat) :
    List Breach :=
  let held := p.cell time node
  let foreign := held \ results
  let executed := times.getD node none
  let done := executed.any (· ≤ time)
  (if foreign.isEmpty then [] else [.foreignResults node time foreign]) ++
    (if m.chain.isInner node && held.contains node != done then
      [.ownResult node time (held.contains node) executed] else [])

/-- Breaches of `Rule.selfResult`. -/
def selfBreaches : Checked (List Breach) := do
  let results ← m.chain.resultSetChecked
  if m.tableCovers p then
    let times := m.firstTimes s
    return (List.range (m.horizon + 1)).flatMap fun time =>
      (List.range m.nodes).flatMap (m.cellBreaches p results times time)
  else .error (.outOfBounds (m.nodes * (m.horizon + 1)) p.cells.size)

/-- What a node should hold at time 0. -/
def expectedStart (node : Nat) : NodeSet :=
  if m.chain.isInner node ∧ s.timeOf node = some 0 then .singleton node else ∅

/-- Breaches of `Rule.initialization`. -/
def initialBreaches : Checked (List Breach) :=
  if p.cells.size < m.nodes then .error (.outOfBounds m.nodes p.cells.size)
  else
    match (m.oversized? s 0 0).filter m.chain.isInner with
    | some node => .error (.idTooLarge node)
    | none => .ok <| (List.range m.nodes).filterMap fun node =>
      let expected := m.expectedStart s node
      let actual := p.cell 0 node
      if actual = expected then none else some (.wrongStart node actual expected)

/-- Breaches of `Rule.boundaryCompleteness`. -/
def boundaryBreaches : Checked (List Breach) := do
  let results ← m.chain.resultSetChecked
  let atEnds ← [0, ← m.chain.farEndChecked].mapM fun endpoint => do
    let missing := results \ (← p.read m.horizon endpoint)
    return if missing.isEmpty then []
      else [Breach.incompleteEndpoint endpoint m.horizon missing]
  return atEnds.flatten

/-! ## Who sends what -/

/-- Whether two messages go the same way at the same time. -/
def sameSlot (a b : Message) : Bool :=
  a.sender == b.sender && a.receiver == b.receiver && a.time == b.time

/-- What is wrong with a message by itself or beside earlier entries. -/
def formBreaches (results : NodeSet) (earlier : List Message) (a : Message) : List Breach :=
  (if earlier.any (sameSlot a) then [.duplicateMessage a.sender a.receiver a.time] else []) ++
    (if a.payload.isEmpty then [.emptyMessage a.sender a.receiver a.time] else []) ++
    (if a.payload.isSubset results then [] else [.foreignPayload a.sender a.payload])

/-- A message that is late, or carries what its sender does not hold. -/
def payloadBreaches (a : Message) : Checked (List Breach) := do
  if m.horizon < a.time then return [.lateMessage a.sender a.time m.horizon]
  if m.nodes ≤ a.sender then return []
  let held ← p.read a.time a.sender
  return if a.payload.isSubset held then []
    else [.unheldPayload a.sender a.time a.payload held]

/-- What is wrong with messages that follow the `earlier` ones. -/
def messageBreaches (results : NodeSet) : (earlier rest : List Message) → Checked (List Breach)
  | _, [] => .ok []
  | earlier, a :: rest => do
    let own := formBreaches results earlier a ++ (← m.payloadBreaches p a)
    return own ++ (← messageBreaches results (a :: earlier) rest)

/-- Breaches of `Rule.sendFeasibility`. -/
def sendBreaches : Checked (List Breach) := do
  m.messageBreaches p (← m.chain.resultSetChecked) [] s.messages

/-- Breaches of `Rule.adjacency`. -/
def adjacencyBreaches : List Breach :=
  (s.messages.filter fun a => !m.chain.sideBySide a.sender a.receiver).map fun a =>
    .nonAdjacent a.sender a.receiver

/-- The nodes beside a node whose rank is higher than 0. -/
def rankedBeside (node : Nat) : List Nat :=
  (m.chain.beside node).filter fun other => 0 < m.ranks.values.getD other 0

/-- A node of rank 0 that could tell a node of a higher rank, and does not. -/
def announceBreach (node : Nat) : Option Breach :=
  let ranked := m.rankedBeside node
  if m.ranks.values.getD node 0 ≠ 0 ∨ ranked.isEmpty then none
  else if s.messages.any fun a => a.sender == node && ranked.contains a.receiver then none
  else some (.silentRankZero node)

/-- Breaches of `Rule.rankZeroAnnounce`. -/
def announceBreaches : Checked (List Breach) :=
  if m.nodes ≤ m.ranks.values.length then
    .ok ((List.range m.nodes).filterMap (m.announceBreach s))
  else .error (.outOfBounds m.nodes m.ranks.values.length)

/-! ## All rules -/

/-- The breaches of a rule. -/
def breachesOf : Rule → Checked (List Breach)
  | .taskExecution => m.taskBreaches s
  | .rankEnablement => m.enablementBreaches s p
  | .propagation => m.propagationBreaches s p
  | .selfResult => m.selfBreaches s p
  | .initialization => m.initialBreaches s p
  | .boundaryCompleteness => m.boundaryBreaches p
  | .sendFeasibility => m.sendBreaches s p
  | .adjacency => .ok (m.adjacencyBreaches s)
  | .rankZeroAnnounce => m.announceBreaches s

/-- The breaches of the rules of the bank, rule by rule. -/
def breaches : Checked (List Breach) := do
  return (← m.bank.rules.mapM (m.breachesOf s p)).flatten

/-- The breaches of a schedule together with a table that is claimed for it. A
table of the wrong size is a breach by itself. -/
def judge : Checked (List Breach) :=
  if p.nodes = m.nodes ∧ p.horizon = m.horizon then m.breaches s p
  else do
    return [.wrongTableSize p.nodes (← fitting (p.horizon + 1)) m.nodes
      (← fitting (m.horizon + 1))]

/-- The breaches of a schedule; none if it is valid. -/
def verdict : Checked (List Breach) := do
  m.judge s (← m.replay s)

/-- Whether a schedule is valid. -/
def isValid : Checked Bool := do return (← m.verdict s).isEmpty

end Model

end ChainPropagation
