import ChainPropagation.Reach

/-!
# One step of time

Every way of making a schedule goes through the same step: all nodes that may
execute do so (`executeReady`); if the draft is complete then, it is finished
(`beginStep`); otherwise some of the `usefulLinks` are sent and time advances.

A message is worth sending if it tells the receiver something that is neither
there nor on its way, or if it announces a node of rank 0 as the rule for that
demands. Candidates are asked again before they are sent, because an earlier
message of the same step may have made them useless.

`stillNeeded` is a number of messages that are still needed: the results that
are missing at an endpoint have to come all the way, one message for each hop.
-/

namespace ChainPropagation

/-- Where a draft stands after the executions of a step. -/
inductive Opening where
  | finished (d : Draft)
  | continuing (d : Draft)

namespace Draft

/-- Whether nothing has been sent at the present time. -/
def isSilent (d : Draft) : Bool := !d.messages.back?.any (·.time == d.time)

end Draft

namespace Model

/-! ## Announcements -/

/-- Whether a node has sent to a node of a rank higher than 0. Messages are
looked at in the order in which they were sent, up to the first that counts. -/
def hasAnnounced (m : Model) (d : Draft) (node : Nat) : Checked Bool :=
  let first := d.messages.find? fun a =>
    a.sender == node && (m.ranks.values[a.receiver]?).all (0 < ·)
  match first with
  | none => .ok false
  | some a => do return 0 < (← m.ranks.rankOf a.receiver)

/-- Whether a message would be an announcement that is still to be made. -/
def isOwedAnnouncement (m : Model) (d : Draft) (sender receiver : Nat) : Checked Bool := do
  if !m.bank.contains .rankZeroAnnounce then return false
  if (← m.ranks.rankOf sender) ≠ 0 then return false
  if (← m.ranks.rankOf receiver) ≤ 0 then return false
  return !(← m.hasAnnounced d sender)

/-- Whether a node has announced itself, unless it need not. -/
def hasAnnouncedIfDue (m : Model) (d : Draft) (node : Nat) : Checked Bool := do
  if (← m.ranks.rankOf node) ≠ 0 then return true
  if !(← (m.chain.beside node).anyM fun other => do return 0 < (← m.ranks.rankOf other)) then
    return true
  m.hasAnnounced d node

/-- Whether every announcement that the rules demand has been made. -/
def allAnnounced (m : Model) (d : Draft) : Checked Bool :=
  if m.bank.contains .rankZeroAnnounce then
    (List.range m.nodes).allM (m.hasAnnouncedIfDue d)
  else .ok true

/-! ## Messages -/

/-- Whether a message is allowed and of use now. -/
def isUseful (m : Model) (d : Draft) (sender receiver : Nat) : Checked Bool := do
  if !(← m.canSend d sender receiver) then return false
  if !(← d.holdingChecked sender).isSubset (← d.holdingNextChecked receiver) then return true
  m.isOwedAnnouncement d sender receiver

/-- Order by rank of the sender, sender and receiver. -/
def linkPrecedes (a b : Int × Nat × Nat) : Bool :=
  a.1 < b.1 || (a.1 == b.1 &&
    (a.2.1 < b.2.1 || (a.2.1 == b.2.1 && a.2.2 ≤ b.2.2)))

/-- Links by rank of the sender, sender and receiver. A single link needs no
rank. -/
def inRankOrder (m : Model) (links : List (Nat × Nat)) : Checked (List (Nat × Nat)) :=
  if links.length < 2 then .ok links
  else do
    let ranked ← links.mapM fun link => do return ((← m.ranks.rankOf link.1), link)
    return (sorted linkPrecedes ranked).map (·.2)

/-- The messages worth sending as a step begins; none at the horizon. -/
def usefulLinks (m : Model) (d : Draft) : Checked (List (Nat × Nat)) :=
  if m.horizon ≤ d.time then .ok []
  else do
    m.inRankOrder (← Checked.filter (fun (sender, receiver) => m.isUseful d sender receiver)
      m.chain.links)

/-! ## Executions -/

/-- Executes all nodes that may execute, and sets the row down. -/
def executeReady (m : Model) (d : Draft) : Checked Draft := do
  let ready ← Checked.filter (m.isReady d) (← m.chain.innerChecked)
  (← ready.foldlM Draft.execute d).noteRow

/-- Whether the draft needs no further message. -/
def isDone (m : Model) (d : Draft) : Checked Bool := do
  if ← d.endsHoldAll m.chain then m.allAnnounced d else return false

/-- Begins a step: executes what it can, and finishes the draft if it is
complete. -/
def beginStep (m : Model) (d : Draft) : Checked Opening := do
  let d ← m.executeReady d
  if ← m.isDone d then return .finished (← d.settle)
  return .continuing d

/-! ## Bounds on a step -/

theorem time_of_beginStep {m : Model} {d d' : Draft}
    (h : m.beginStep d = .ok (.continuing d')) : d'.time = d.time := by
  obtain ⟨e, he, h⟩ := bind_eq_ok.1 h
  obtain ⟨inner, _, he⟩ := bind_eq_ok.1 he
  obtain ⟨ready, _, he⟩ := bind_eq_ok.1 he
  obtain ⟨f, hf, he⟩ := bind_eq_ok.1 he
  obtain ⟨table, _, he⟩ := bind_eq_ok.1 he
  cases he
  obtain ⟨c, _, h⟩ := bind_eq_ok.1 h
  cases c
  · cases h
    have hsame : f.time = d.time := Draft.time_of_executions hf
    exact hsame
  · obtain ⟨g, _, h⟩ := bind_eq_ok.1 h
    cases h

theorem length_of_inRankOrder {m : Model} {links result : List (Nat × Nat)}
    (h : m.inRankOrder links = .ok result) : result.length = links.length := by
  unfold inRankOrder at h
  split at h
  · cases h
    rfl
  · obtain ⟨ranked, hr, h⟩ := bind_eq_ok.1 h
    cases h
    simp [length_of_mapM hr]

theorem length_of_usefulLinks {m : Model} {d : Draft} {links : List (Nat × Nat)}
    (h : m.usefulLinks d = .ok links) : links.length ≤ m.chain.links.length := by
  unfold usefulLinks at h
  split at h
  · cases h
    exact Nat.zero_le _
  · obtain ⟨kept, hk, h⟩ := bind_eq_ok.1 h
    rw [length_of_inRankOrder h]
    exact (Checked.filter_sublist hk).length_le

/-! ## How much is missing -/

/-- The first of some nodes that will hold a result next; the node of the result
itself if none of them will. -/
def nearestHolder (next : List NodeSet) (nodes : List Nat) (origin : Nat) : Checked Nat := do
  let nearest ← nodes.findM? fun node => do return (← lookUp next node).contains origin
  return nearest.getD origin

/-- A number of messages that any completion of the draft still needs: the
furthest way to node 0 and the furthest way to the last node, each from the
nearest node that has the result or will have it next. -/
def stillNeeded (m : Model) (d : Draft) : Checked Nat := do
  let results ← m.chain.resultSetChecked
  let last ← m.chain.farEndChecked
  let nodes := List.range m.nodes
  let next ← nodes.mapM d.holdingNextChecked
  let toFirst ← (results \ (← lookUp next 0)).toList.mapM (nearestHolder next nodes)
  let toLast ← (results \ (← lookUp next last)).toList.mapM fun origin => do
    without last (← nearestHolder next nodes.reverse origin)
  fitting (toFirst.foldl max 0 + toLast.foldl max 0)

end Model

end ChainPropagation
