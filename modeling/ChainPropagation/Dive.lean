import ChainPropagation.Flood
import ChainPropagation.Random

/-!
# Random dives

A dive goes through the steps like a flood, but tosses a coin for each message
that is worth sending; an announcement that is due needs no coin. If the
endpoints cannot complete in time after a step made in this way, the step is
taken back and flooded. So a dive completes whenever the flood does, mostly
with fewer messages.

Main definition: `Model.dive`.
-/

namespace ChainPropagation

namespace Model

variable {σ : Type}

/-- Decides about one message. -/
def sendIfChosen (m : Model) (next : σ → UInt64 × σ) (coin : Coin) (now : Draft × σ)
    (link : Nat × Nat) : Checked (Draft × σ) := do
  let (d, s) := now
  if !(← m.isUseful d link.1 link.2) then return (d, s)
  if ← m.isOwedAnnouncement d link.1 link.2 then return (← d.send link.1 link.2, s)
  match coin.toss next s with
  | (true, s) => return (← d.send link.1 link.2, s)
  | (false, s) => return (d, s)

/-- Decides about all messages of a step. -/
def diveSends (m : Model) (next : σ → UInt64 × σ) (coin : Coin) (d : Draft) (s : σ) :
    Checked (Draft × σ) := do
  (← m.usefulLinks d).foldlM (m.sendIfChosen next coin) (d, s)

/-- One step of a dive, from the draft in which the executions are done to the
next time: the random step if it leaves a way to complete, else the flooded
one. -/
def diveOn (m : Model) (next : σ → UInt64 × σ) (coin : Coin) (d : Draft) (s : σ) :
    Checked (Draft × σ) := do
  let (tried, s) ← m.diveSends next coin d s
  let tried ← tried.passTime
  if ← m.canFinish tried then return (tried, s)
  return (← (← m.floodOnce d).passTime, s)

/-- Dives for up to `left` more steps. -/
def diveFrom (m : Model) (next : σ → UInt64 × σ) (coin : Coin) :
    (left : Nat) → Draft → σ → Checked (Option Draft × σ)
  | 0, d, s => do
    match ← m.beginStep d with
    | .finished d => return (some d, s)
    | .continuing _ => return (none, s)
  | left + 1, d, s => do
    match ← m.beginStep d with
    | .finished d => return (some d, s)
    | .continuing d =>
      let (d, s) ← m.diveOn next coin d s
      m.diveFrom next coin left d s

/-- The draft of a dive, if it completes by the horizon, and the state of the
generator after it. -/
def dive (m : Model) (next : σ → UInt64 × σ) (coin : Coin) (s : σ) :
    Checked (Option Draft × σ) := do
  m.diveFrom next coin m.horizon (← m.blankDraft) s

end Model

end ChainPropagation
