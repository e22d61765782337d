import ChainPropagation.Model
import ChainPropagation.Possession
import ChainPropagation.Schedule

/-!
# Replay

The replay of a schedule is the table that its events give rise to, taken at
their word: at each time the messages sent one step earlier are delivered with
the payload they claim, and then the nodes that execute hold their own result.
Nothing is ever forgotten. Events of nodes outside the chain, and those past
the horizon, have no effect.

Main definition: `Model.replay`.
-/

namespace ChainPropagation

namespace Schedule

/-- A row after the messages that are there at `time`. -/
def deliver (s : Schedule) (nodes time : Nat) (row : Array NodeSet) : Array NodeSet :=
  let due := s.messages.filter fun m => m.receiver < nodes && m.time + 1 == time
  due.foldl (fun row m => row.modify m.receiver (· ∪ m.payload)) row

/-- A row after the executions at `time`. -/
def compute (s : Schedule) (nodes time : Nat) (row : Array NodeSet) : Array NodeSet :=
  let due := s.executions.filter fun e => e.node < nodes && e.time == time
  due.foldl (fun row e => row.modify e.node (·.insert e.node)) row

/-- The row of `time`, from the row before it. -/
def rowAfter (s : Schedule) (nodes time : Nat) (row : Array NodeSet) : Array NodeSet :=
  s.compute nodes time (s.deliver nodes time row)

/-- Appends `count` rows, the first one for `time`, to the cells of the rows
before, of which `row` is the last. -/
def appendRows (s : Schedule) (nodes : Nat) : (count time : Nat) → (row cells : Array NodeSet) →
    Array NodeSet
  | 0, _, _, cells => cells
  | count + 1, time, row, cells =>
    let row := s.rowAfter nodes time row
    s.appendRows nodes count (time + 1) row (cells ++ row)

/-- The table of a schedule on a chain of `nodes` nodes. -/
def table (s : Schedule) (nodes horizon : Nat) : Possession where
  nodes := nodes
  horizon := horizon
  cells := s.appendRows nodes (horizon + 1) 0 (Array.replicate nodes ∅) #[]

end Schedule

namespace Model

/-- Whether an execution shows in the replay: its node is in the chain and it
is not late. -/
def counts (m : Model) (e : Execution) : Bool := e.node < m.nodes && e.time ≤ m.horizon

/-- The table that the events of a schedule give rise to. It has to be possible
to store it, along with three words for each time, and to insert the nodes that
execute into sets. -/
def replay (m : Model) (s : Schedule) : Checked Possession := do
  let _ ← Possession.blank m.nodes m.horizon
  storing (3 * (m.horizon + 1))
  match s.executions.find? fun e => m.counts e && NodeSet.capacity ≤ e.node with
  | some e => .error (.idTooLarge e.node)
  | none => .ok (s.table m.nodes m.horizon)

end Model

end ChainPropagation
