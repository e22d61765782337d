import ChainPropagation.Rule
import ChainPropagation.NodeSet

/-!
# Violations

A `Breach` is a way in which a schedule breaks a rule, with the nodes, times
and sets that are at fault. A `Violation` is the report of it: the rule, the
node that it is charged to, and a sentence.

Main definition: `Breach.report`.
-/

namespace ChainPropagation

/-- A report that a rule is broken. -/
structure Violation where
  rule : Rule
  node : Nat
  message : String
  deriving DecidableEq

/-- A way to break a rule. -/
inductive Breach where
  | unknownExecution (node : Nat)
  | endpointExecution (node : Nat)
  | lateExecution (node time horizon : Nat)
  | executionCount (node count : Nat)
  | rankZeroLate (node time : Nat)
  | missingResults (node time : Nat) (missing : NodeSet)
  | wrongPossession (node time : Nat) (actual expected : NodeSet)
  | wrongTableSize (nodes rows modelNodes modelRows : Nat)
  | foreignResults (node time : Nat) (foreign : NodeSet)
  | ownResult (node time : Nat) (held : Bool) (executed : Option Nat)
  | wrongStart (node : Nat) (actual expected : NodeSet)
  | incompleteEndpoint (node horizon : Nat) (missing : NodeSet)
  | floodIncomplete (horizon : Nat)
  | duplicateMessage (sender receiver time : Nat)
  | emptyMessage (sender receiver time : Nat)
  | foreignPayload (sender : Nat) (payload : NodeSet)
  | lateMessage (sender time horizon : Nat)
  | unheldPayload (sender time : Nat) (payload held : NodeSet)
  | nonAdjacent (sender receiver : Nat)
  | silentRankZero (node : Nat)
  deriving DecidableEq

namespace Breach

/-- The rule that is broken. -/
def rule : Breach → Rule
  | unknownExecution .. | endpointExecution .. | lateExecution .. | executionCount .. =>
    .taskExecution
  | rankZeroLate .. | missingResults .. => .rankEnablement
  | wrongPossession .. | wrongTableSize .. => .propagation
  | foreignResults .. | ownResult .. => .selfResult
  | wrongStart .. => .initialization
  | incompleteEndpoint .. | floodIncomplete .. => .boundaryCompleteness
  | duplicateMessage .. | emptyMessage .. | foreignPayload .. | lateMessage ..
  | unheldPayload .. => .sendFeasibility
  | nonAdjacent .. => .adjacency
  | silentRankZero .. => .rankZeroAnnounce

/-- The node that the breach is charged to: for a message its sender, and node
0 for a table as a whole. -/
def node : Breach → Nat
  | unknownExecution n | endpointExecution n | lateExecution n .. | executionCount n ..
  | rankZeroLate n .. | missingResults n .. | wrongPossession n .. | foreignResults n ..
  | ownResult n .. | wrongStart n .. | incompleteEndpoint n .. | duplicateMessage n ..
  | emptyMessage n .. | foreignPayload n .. | lateMessage n .. | unheldPayload n ..
  | nonAdjacent n .. | silentRankZero n => n
  | wrongTableSize .. | floodIncomplete .. => 0

/-- The time of an execution, if there is one. -/
def executedText : Option Nat → String
  | some time => s!"Some({time})"
  | none => "None"

/-- The sentence about a breach. -/
def message : Breach → String
  | unknownExecution node => s!"execution of unknown node {node}"
  | endpointExecution node => s!"endpoint {node} must not execute"
  | lateExecution node time horizon =>
    s!"node {node} executes at {time} past horizon {horizon}"
  | executionCount node count =>
    s!"node {node} executes {count} times, expected exactly once"
  | rankZeroLate node time => s!"rank-0 node {node} executes at {time} instead of 0"
  | missingResults node time missing =>
    let set := missing.text
    s!"node {node} executes at {time} without lower-rank results {set}"
  | wrongPossession node time actual expected =>
    let has := actual.text
    let due := expected.text
    s!"node {node} holds {has} at {time} but deliveries give {due}"
  | wrongTableSize nodes rows modelNodes modelRows =>
    s!"possession table is {nodes}x{rows}, model is {modelNodes}x{modelRows}"
  | foreignResults node time foreign =>
    let set := foreign.text
    s!"node {node} holds non-result ids {set} at {time}"
  | ownResult node time held executed =>
    let step := executedText executed
    s!"node {node} own-result possession {held} disagrees with execution at {step} (t={time})"
  | wrongStart node actual expected =>
    let has := actual.text
    let due := expected.text
    s!"node {node} holds {has} at t=0, expected {due}"
  | incompleteEndpoint node horizon missing =>
    let set := missing.text
    s!"endpoint {node} lacks results {set} at T={horizon}"
  | floodIncomplete horizon =>
    s!"flooding did not complete the endpoints by T={horizon}"
  | duplicateMessage sender receiver time =>
    s!"duplicate message {sender} -> {receiver} at {time}"
  | emptyMessage sender receiver time => s!"empty message {sender} -> {receiver} at {time}"
  | foreignPayload _ payload =>
    let set := payload.text
    s!"payload {set} carries non-result ids"
  | lateMessage _ time horizon => s!"message at {time} past horizon {horizon}"
  | unheldPayload sender time payload held =>
    let set := payload.text
    let has := held.text
    s!"node {sender} sends {set} at {time} but holds only {has}"
  | nonAdjacent sender receiver =>
    s!"message {sender} -> {receiver} crosses non-adjacent nodes"
  | silentRankZero node =>
    s!"rank-0 node {node} never sends to a higher-rank neighbour"

/-- The report of a breach. -/
def report (b : Breach) : Violation where
  rule := b.rule
  node := b.node
  message := b.message

end Breach

end ChainPropagation
