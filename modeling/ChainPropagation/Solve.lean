import ChainPropagation.Dive
import ChainPropagation.Options
import ChainPropagation.Outcome
import ChainPropagation.Search

/-!
# Solvers

Two solvers answer a model. `Model.solveByFlooding` takes the schedule of the
flood. `Model.solve` looks for a schedule with the fewest messages: it begins
with the flood and a number of random dives, so as to have a low bound, and
then searches the tree. It does so with one worker; what comes of several is
`Model.solveTogether`. Either way a schedule is judged before it counts, and a
model without any schedule is told apart beforehand.

The time that has passed comes from a `clock`, which says how many milliseconds
have gone by when a number of nodes has been explored.
-/

namespace ChainPropagation

/-- The limits that the options set. -/
def Options.limits (o : Options) (clock : Nat → Nat) : Limits where
  nodes := o.maxNodes
  overdue explored := o.maxMilliseconds.any (· ≤ clock explored)

/-- The coin of the dives. -/
def Options.coin (o : Options) : Coin :=
  .ofProbability (Options.nearestProbability o.sendProbability)

/-- The effort that a tally shows. -/
def Tally.effort (t : Tally) (clock : Nat → Nat) : Effort where
  explored := t.explored
  cutByBound := t.cutByBound
  cutByReach := t.cutByReach
  accepted := t.accepted
  improvements := t.incumbent.improvements
  elapsed := clock t.explored

/-- The solution that a tally shows. -/
def Tally.solution? (t : Tally) (clock : Nat → Nat) : Option Solution :=
  t.incumbent.best.map fun schedule =>
    { schedule
      cost := schedule.cost
      provenOptimal := !t.stopped
      effort := t.effort clock }

namespace Model

variable {σ : Type}

/-- What is reported when flooding leaves an endpoint incomplete, although the
model seemed to have a schedule. -/
def floodFailure (m : Model) : Failure :=
  .error (.inconsistency [(Breach.floodIncomplete m.horizon).report])

/-- The schedule of the flood as an answer. -/
def solveByFlooding (m : Model) : Solving Outcome := do
  if let some reason ← m.obstacle then return .infeasible reason
  let some d ← m.flood | throw m.floodFailure
  let schedule ← m.judged d
  return .feasible {
    schedule
    cost := schedule.cost
    provenOptimal := false
    effort := { Effort.zero with accepted := 1 } }

/-- The dive with an index, which has a seed of its own. -/
def diveAt (m : Model) (g : Generator σ) (o : Options) (index : Nat) : Checked (Option Draft) := do
  let (d?, _) ← m.dive g.next o.coin (g.ofSeed (UInt64.ofNat (o.seed + index)))
  return d?

/-- The tally after one dive more, the one with this index. -/
def diveOnce (m : Model) (g : Generator σ) (o : Options) (t : Tally) (index : Nat) :
    Solving Tally := do
  match ← m.diveAt g o index with
  | some d => m.submit d t
  | none => return t

/-- The tally after `left` dives more, the first one with this index. -/
def diveOften (m : Model) (g : Generator σ) (o : Options) :
    (left index : Nat) → Tally → Solving Tally
  | 0, _, t => .ok t
  | left + 1, index, t => do m.diveOften g o left (index + 1) (← m.diveOnce g o t index)

/-- The tally after the flood and the dives. -/
def headStart (m : Model) (g : Generator σ) (o : Options) : Solving Tally := do
  let some d ← m.flood | throw m.floodFailure
  m.diveOften g o o.dives 0 (← m.submit d .fresh)

/-- The tally after the whole search. -/
def search (m : Model) (g : Generator σ) (o : Options) (clock : Nat → Nat) : Solving Tally := do
  let t ← m.headStart g o
  let (roots, t) ← m.follow t (← m.enter (← m.blankDraft))
  m.visitAll (o.limits clock) (max o.frontier 1) false roots t

/-- The answer that a tally gives. -/
def report (m : Model) (t : Tally) (clock : Nat → Nat) : Solving Outcome :=
  match t.solution? clock with
  | some found => .ok (.feasible found)
  | none => .error m.floodFailure

/-- A schedule with the fewest messages, unless a limit ends the search; found by
one worker. -/
def solve (m : Model) (g : Generator σ) (o : Options) (clock : Nat → Nat) : Solving Outcome := do
  if let some reason ← m.obstacle then return .infeasible reason
  m.report (← m.search g o clock) clock

end Model

end ChainPropagation
