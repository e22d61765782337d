import ChainPropagation.Step

/-!
# Flooding

A flood sends every message that is worth sending, at every time. Nothing can
happen earlier than it does in a flood, so a flood completes whenever any
schedule does; it takes many messages for that.

Main definition: `Model.flood`.
-/

namespace ChainPropagation

namespace Model

/-- Sends a message if it is still worth it. -/
def sendIfUseful (m : Model) (d : Draft) (link : Nat × Nat) : Checked Draft := do
  if ← m.isUseful d link.1 link.2 then d.send link.1 link.2 else return d

/-- Sends all that is worth sending. -/
def floodOnce (m : Model) (d : Draft) : Checked Draft := do
  (← m.usefulLinks d).foldlM m.sendIfUseful d

/-- Floods for up to `left` more steps. -/
def floodFrom (m : Model) : (left : Nat) → Draft → Checked (Option Draft)
  | 0, d => do
    match ← m.beginStep d with
    | .finished d => return some d
    | .continuing _ => return none
  | left + 1, d => do
    match ← m.beginStep d with
    | .finished d => return some d
    | .continuing d => m.floodFrom left (← (← m.floodOnce d).passTime)

/-- The draft of a flood, if it completes by the horizon. -/
def flood (m : Model) : Checked (Option Draft) := do
  m.floodFrom m.horizon (← m.blankDraft)

end Model

end ChainPropagation
