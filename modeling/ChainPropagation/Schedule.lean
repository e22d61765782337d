import ChainPropagation.NodeSet
import ChainPropagation.Sorting

/-!
# Schedules

A schedule says when nodes execute and which messages they send. A message
that is sent at a time carries a set of results, and is there at the next time.
Nothing is asked of a schedule here: ids, times and payloads are arbitrary.
-/

namespace ChainPropagation

/-- A node executes. -/
structure Execution where
  node : Nat
  time : Nat
  deriving DecidableEq

/-- A node sends a set of results to another one. -/
structure Message where
  sender : Nat
  receiver : Nat
  time : Nat
  payload : NodeSet
  deriving DecidableEq

/-- When nodes execute, and every message they exchange. -/
structure Schedule where
  executions : List Execution
  messages : List Message
  deriving DecidableEq

namespace Execution

/-- Order by time and node. -/
def precedes (a b : Execution) : Bool :=
  a.time < b.time || (a.time == b.time && a.node ≤ b.node)

theorem precedes_iff {a b : Execution} :
    a.precedes b = true ↔ a.time < b.time ∨ (a.time = b.time ∧ a.node ≤ b.node) := by
  simp only [precedes, Bool.or_eq_true, Bool.and_eq_true, decide_eq_true_eq, beq_iff_eq]

end Execution

namespace Message

/-- Order by time, sender and receiver. -/
def precedes (a b : Message) : Bool :=
  a.time < b.time || (a.time == b.time &&
    (a.sender < b.sender || (a.sender == b.sender && a.receiver ≤ b.receiver)))

theorem precedes_iff {a b : Message} :
    a.precedes b = true ↔ a.time < b.time ∨ (a.time = b.time ∧
      (a.sender < b.sender ∨ (a.sender = b.sender ∧ a.receiver ≤ b.receiver))) := by
  simp only [precedes, Bool.or_eq_true, Bool.and_eq_true, decide_eq_true_eq, beq_iff_eq]

theorem precedes_total (a b : Message) : a.precedes b = true ∨ b.precedes a = true := by
  rw [precedes_iff, precedes_iff]
  omega

theorem precedes_trans (a b c : Message) (hab : a.precedes b = true)
    (hbc : b.precedes c = true) : a.precedes c = true := by
  rw [precedes_iff] at hab hbc ⊢
  omega

/-- When the message is there. -/
def arrivalTime (m : Message) : Checked Nat := fitting (m.time + 1)

/-- Whether the message carries just the sender's own result. -/
def carriesOwnOnly (m : Message) : Checked Bool :=
  return m.payload == (← NodeSet.add ∅ m.sender)

end Message

namespace Schedule

instance : EmptyCollection Schedule := ⟨⟨[], []⟩⟩

/-- One execution more. -/
def withExecution (s : Schedule) (e : Execution) : Schedule :=
  { s with executions := s.executions ++ [e] }

/-- One message more. -/
def withMessage (s : Schedule) (m : Message) : Schedule :=
  { s with messages := s.messages ++ [m] }

/-- The same events by time; those of one time by the nodes they concern. -/
def inOrder (s : Schedule) : Schedule where
  executions := sorted Execution.precedes s.executions
  messages := sorted Message.precedes s.messages

/-- The number of messages, which a solver makes as small as it can. -/
def cost (s : Schedule) : Nat := s.messages.length

/-- When a node executes according to the first entry for it. -/
def timeOf (s : Schedule) (node : Nat) : Option Nat :=
  (s.executions.find? (·.node == node)).map (·.time)

/-- The messages sent at a time. -/
def sentAt (s : Schedule) (time : Nat) : List Message := s.messages.filter (·.time == time)

/-- The messages sent by a node. -/
def sentBy (s : Schedule) (node : Nat) : List Message :=
  s.messages.filter (·.sender == node)

/-- The latest time at which a node executes. -/
def latestExecution (s : Schedule) : Option Nat := (s.executions.map (·.time)).max?

end Schedule

end ChainPropagation
