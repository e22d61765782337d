import ChainPropagation.Draft

/-!
# What a draft can still reach

Which nodes may execute now, which messages may be sent, and how early things
can happen from here on. A result moves one hop at each time, so it arrives as
soon as the nearest node that holds it is away. `soonestExecutions` goes
through the nodes by rank; `soonestCompletion` is the first time at which both
endpoints can hold every result. From the blank draft this decides whether a
model has any schedule (`Model.obstacle`).
-/

namespace ChainPropagation

/-- Why a model has no schedule. -/
inductive Infeasibility where
  /-- even a result next to one endpoint cannot cross the chain in time -/
  | horizonTooSmall
  /-- waiting for results of lower ranks takes too long -/
  | rankUnreachable
  deriving DecidableEq

namespace Infeasibility

/-- The word for the reason. -/
def name : Infeasibility → String
  | horizonTooSmall => "horizon-too-small"
  | rankUnreachable => "rank-unreachable"

/-- The reason that a word names. -/
def named? (word : String) : Option Infeasibility :=
  [horizonTooSmall, rankUnreachable].find? (·.name == word)

end Infeasibility

namespace Model

/-! ## Now -/

/-- Whether a node may execute now: an intermediate node that did not yet, at
time 0 if its rank is 0, and otherwise when it holds what it waits for. -/
def isReady (m : Model) (d : Draft) (node : Nat) : Checked Bool := do
  if !(← m.chain.isInnerChecked node) then return false
  if (← d.executedAtChecked node).isSome then return false
  if (← m.ranks.rankOf node) = 0 then return d.time == 0
  return (← m.ranks.awaitedBy node).isSubset (← d.holdingChecked node)

/-- Whether a node may send to another one now: they stand side by side, it is
not too late, and there is something to send. -/
def canSend (m : Model) (d : Draft) (sender receiver : Nat) : Checked Bool := do
  if !(m.chain.sideBySide sender receiver && d.time ≤ m.horizon) then return false
  return !(← d.holdingChecked sender).isEmpty

/-! ## From here on -/

/-- When a result can be at `target` if `holder` passes it on. -/
def arrivalFrom (d : Draft) (origin target holder : Nat) : Checked (Option Nat) := do
  if (← d.holdingChecked holder).contains origin then
    return some (← fitting (d.time + Chain.hops holder target))
  if (← d.arrivingChecked holder).contains origin then
    let next ← fitting (d.time + 1)
    return some (← fitting (next + Chain.hops holder target))
  return none

/-- When a result can be at `target` first: from the nearest node that has it
or will have it, or else from its own node once that executes. -/
def soonestArrival (m : Model) (d : Draft) (estimates : List (Option Nat)) (origin target : Nat) :
    Checked (Option Nat) := do
  let arrivals ← (List.range m.nodes).mapM (arrivalFrom d origin target)
  match (arrivals.filterMap id).min? with
  | some time => return some time
  | none =>
    match ← lookUp estimates origin with
    | some time => return some (← fitting (time + Chain.hops origin target))
    | none => return none

/-- The later of two times; never if one of them is never. -/
def latest : Option Nat → Option Nat → Option Nat
  | some a, some b => some (max a b)
  | _, _ => none

/-- When a node can execute first, given this for the nodes of lower ranks. -/
def soonestExecution (m : Model) (d : Draft) (estimates : List (Option Nat)) (node : Nat) :
    Checked (Option Nat) := do
  match ← d.executedAtChecked node with
  | some time => return some time
  | none =>
    if (← m.ranks.rankOf node) = 0 then return if d.time = 0 then some 0 else none
    (← m.ranks.awaitedBy node).toList.foldlM (fun time origin => do
      return latest time (← m.soonestArrival d estimates origin node)) (some d.time)

/-- The list with another entry at an index. -/
def replaceEntry {α : Type} (entries : List α) (index : Nat) (a : α) : Checked (List α) :=
  if index < entries.length then .ok (entries.set index a)
  else .error (.outOfBounds index entries.length)

/-- When each node can execute first, or did; never for the endpoints. -/
def soonestExecutions (m : Model) (d : Draft) : Checked (List (Option Nat)) :=
  m.ranks.sequence.foldlM (fun estimates node => do
    replaceEntry estimates node (← m.soonestExecution d estimates node))
    (List.replicate m.nodes none)

/-- When both endpoints can hold every result first. -/
def soonestCompletion (m : Model) (d : Draft) : Checked (Option Nat) := do
  let estimates ← m.soonestExecutions d
  let last ← m.chain.farEndChecked
  let arrivals ← m.chain.inner.mapM fun origin => do
    let atFirst ← m.soonestArrival d estimates origin 0
    return latest atFirst (← m.soonestArrival d estimates origin last)
  return arrivals.foldl latest (some d.time)

/-- Whether both endpoints can hold every result by the horizon. -/
def canFinish (m : Model) (d : Draft) : Checked Bool := do
  return (← m.soonestCompletion d).any (· ≤ m.horizon)

/-- Why the model has no schedule, if it has none. -/
def obstacle (m : Model) : Checked (Option Infeasibility) := do
  if m.horizon < m.chain.crossing then return some .horizonTooSmall
  if ← m.canFinish (← m.blankDraft) then return none
  return some .rankUnreachable

end Model

end ChainPropagation
