import ChainPropagation.Model
import ChainPropagation.Possession
import ChainPropagation.Schedule

/-!
# Drafts

A draft is a schedule in the making: it stands at a time, knows what each node
holds now and what is on its way to each node, and remembers every event. At
each time nodes `execute`, then the row of the table is set down by `noteRow`,
then messages are sent, and `passTime` delivers them. A draft that needs no
further message ends with `settle`.

What is sent is always all that the sender holds, and it is not there before
the time advances: `send` touches the inbox of the receiver only.

A view such as `holding` is empty for a node that the draft does not know, and
`noted` and `settled` leave out what the table has no place for. Whatever makes
a schedule goes by their checked forms, which end in a fault then.
-/

namespace ChainPropagation

/-- A schedule in the making. -/
structure Draft where
  time : Nat
  horizon : Nat
  /-- what each node holds now -/
  held : Array NodeSet
  /-- what is on its way to each node -/
  inbox : Array NodeSet
  /-- when each node executed, if it did -/
  executed : Array (Option Nat)
  /-- the messages in the order in which they were sent -/
  messages : Array Message
  /-- the rows set down so far -/
  possession : Possession
  deriving DecidableEq

namespace Draft

/-! ## Views -/

/-- The time that is left. -/
def timeLeft (d : Draft) : Nat := d.horizon - d.time

/-- What a node holds now. -/
def holding (d : Draft) (node : Nat) : NodeSet := d.held.getD node ∅

/-- What is on its way to a node. -/
def arriving (d : Draft) (node : Nat) : NodeSet := d.inbox.getD node ∅

/-- What a node will hold at the next time, executions aside. -/
def holdingNext (d : Draft) (node : Nat) : NodeSet := d.holding node ∪ d.arriving node

/-- When a node executed, if it did. -/
def executedAt (d : Draft) (node : Nat) : Option Nat := d.executed.getD node none

/-! ## Looking things up -/

/-- What a node holds now; it has to be a node of the draft. -/
def holdingChecked (d : Draft) (node : Nat) : Checked NodeSet := entry d.held node

/-- What is on its way to a node of the draft. -/
def arrivingChecked (d : Draft) (node : Nat) : Checked NodeSet := entry d.inbox node

/-- What a node of the draft will hold at the next time, executions aside. -/
def holdingNextChecked (d : Draft) (node : Nat) : Checked NodeSet := do
  return (← d.holdingChecked node) ∪ (← d.arrivingChecked node)

/-- When a node of the draft executed, if it did. -/
def executedAtChecked (d : Draft) (node : Nat) : Checked (Option Nat) := entry d.executed node

/-- Whether both endpoints hold every result. -/
def endsHoldAll (c : Chain) (d : Draft) : Checked Bool := do
  let results ← c.resultSetChecked
  if !results.isSubset (← d.holdingChecked 0) then return false
  return results.isSubset (← d.holdingChecked (← c.farEndChecked))

/-! ## Operations -/

/-- At time 0 nobody holds anything. -/
def blank (c : Chain) (horizon : Nat) : Checked Draft := do
  let possession ← Possession.blank c.nodes horizon
  return {
    time := 0
    horizon
    held := Array.replicate c.nodes ∅
    inbox := Array.replicate c.nodes ∅
    executed := Array.replicate c.nodes none
    messages := #[]
    possession }

/-- A node executes, for the first time, and holds its result from now on. -/
def execute (d : Draft) (node : Nat) : Checked Draft := do
  match ← d.executedAtChecked node with
  | some _ => throw (.executedTwice node)
  | none =>
    let held ← amend d.held node (·.add node)
    return { d with executed := d.executed.setIfInBounds node (some d.time), held }

/-- The draft after a message that carries all that the sender holds. -/
def sent (d : Draft) (sender receiver : Nat) : Draft :=
  let payload := d.holding sender
  { d with
    inbox := d.inbox.modify receiver (· ∪ payload)
    messages := d.messages.push { sender, receiver, time := d.time, payload } }

/-- A node sends all that it holds. -/
def send (d : Draft) (sender receiver : Nat) : Checked Draft :=
  if sender < d.held.size then
    if receiver < d.inbox.size then .ok (d.sent sender receiver)
    else .error (.outOfBounds receiver d.inbox.size)
  else .error (.outOfBounds sender d.held.size)

/-- The draft after it is set down what each node holds now. -/
def noted (d : Draft) : Draft :=
  { d with possession := d.possession.writeRow d.time d.held.toList }

/-- Sets down what each node holds now. -/
def noteRow (d : Draft) : Checked Draft := do
  return { d with possession := ← d.possession.writeRowChecked d.time d.held.toList }

/-- The draft at the next time, when all messages are delivered. -/
def delivered (d : Draft) : Draft :=
  { d with
    held := d.held.zipWith (· ∪ ·) d.inbox
    inbox := d.inbox.map fun _ => ∅
    time := d.time + 1 }

/-- Goes on to the next time. -/
def passTime (d : Draft) : Checked Draft :=
  if d.time < d.horizon then do
    let _ ← fitting (d.time + 1)
    return d.delivered
  else .error .pastHorizon

/-- The draft at the horizon, if nothing happens until then. -/
def settled (d : Draft) : Draft :=
  let row := d.held.toList
  let times := List.range' d.time (d.horizon + 1 - d.time)
  { d with
    possession := times.foldl (fun table time => table.writeRow time row) d.possession
    time := d.horizon }

/-- Ends the draft: nothing happens until the horizon. -/
def settle (d : Draft) : Checked Draft :=
  if d.inbox.all (·.isEmpty) then do
    return { d with
      possession := ← (List.range' d.time (d.horizon + 1 - d.time)).foldlM
        (fun table time => table.writeRowChecked time d.held.toList) d.possession
      time := d.horizon }
  else .error .undelivered

/-- The executions so far, by node. -/
def executions (d : Draft) : List Execution :=
  (List.range d.possession.nodes).filterMap fun node =>
    (d.executedAt node).map fun time => { node, time }

/-- The schedule of the events so far, in order. -/
def schedule (d : Draft) : Schedule :=
  Schedule.inOrder { executions := d.executions, messages := d.messages.toList }

/-- The schedule of the events so far, where each node of the table is one of the
draft. -/
def scheduleChecked (d : Draft) : Checked Schedule := do
  let executions ← (List.range d.possession.nodes).mapM fun node => do
    return (← d.executedAtChecked node).map fun time => { node, time }
  return Schedule.inOrder { executions := executions.filterMap id, messages := d.messages.toList }

/-! ## What a message changes -/

@[simp] theorem holding_sent (d : Draft) (sender receiver node : Nat) :
    (d.sent sender receiver).holding node = d.holding node := rfl

@[simp] theorem time_sent (d : Draft) (sender receiver : Nat) :
    (d.sent sender receiver).time = d.time := rfl

@[simp] theorem horizon_sent (d : Draft) (sender receiver : Nat) :
    (d.sent sender receiver).horizon = d.horizon := rfl

/-! ## Time passes by `passTime` only -/

theorem time_of_execute {d d' : Draft} {node : Nat} (h : d.execute node = .ok d') :
    d'.time = d.time := by
  obtain ⟨executed, _, h⟩ := bind_eq_ok.1 h
  cases executed with
  | some time => cases h
  | none =>
    obtain ⟨held, _, h⟩ := bind_eq_ok.1 h
    cases h
    rfl

theorem time_of_executions {nodes : List Nat} {d d' : Draft}
    (h : nodes.foldlM Draft.execute d = .ok d') : d'.time = d.time :=
  eq_of_foldlM Draft.time time_of_execute h

theorem time_of_send {d d' : Draft} {sender receiver : Nat}
    (h : d.send sender receiver = .ok d') : d'.time = d.time := by
  unfold Draft.send at h
  split at h
  · split at h
    · cases h
      rfl
    · cases h
  · cases h

theorem time_of_passTime {d d' : Draft} (h : d.passTime = .ok d') : d'.time = d.time + 1 := by
  unfold Draft.passTime at h
  split at h
  · obtain ⟨_, _, h⟩ := bind_eq_ok.1 h
    cases h
    rfl
  · cases h

end Draft

/-- The draft that every schedule of a model begins with. -/
def Model.blankDraft (m : Model) : Checked Draft := Draft.blank m.chain m.horizon

end ChainPropagation
