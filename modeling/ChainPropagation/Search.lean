import ChainPropagation.Search.Tree
import ChainPropagation.Incumbent
import ChainPropagation.SolveError
import ChainPropagation.Verdict

/-!
# Branch and bound

The search keeps a list of nodes that are still to be explored. At first it
works on all of them in turn, so that the list grows; when it has reached a
given size, every node is searched to its end before the next one is taken up.
Whatever lies below a node is cut off if the messages sent so far, together
with those that are surely still needed, do not stay below the bound of the
incumbent. A complete draft is judged like any schedule from outside before it
is accepted.

`Limits` may end a search early; then the best schedule so far need not be the
best there is.

Main definition: `Model.visitAll`, which ends because every exploration replaces
a node by at most two nodes of a lower height (`weight_lt_of_visit`).
-/

namespace ChainPropagation

/-- Why a solver does not answer. -/
inductive Failure where
  /-- it met a fault -/
  | fault (f : Fault)
  /-- it has an error to report -/
  | error (e : SolveError)
  deriving DecidableEq

/-- A computation of a solver. -/
abbrev Solving := Except Failure

/-- A fault ends a solver. -/
def Solving.ofChecked {α : Type} : Checked α → Solving α
  | .ok a => .ok a
  | .error f => .error (.fault f)

instance : MonadLift Checked Solving := ⟨Solving.ofChecked⟩

@[simp] theorem lift_ok {α : Type} (a : α) :
    (liftM (Except.ok a : Checked α) : Solving α) = .ok a := rfl

/-- What may end a search early. -/
structure Limits where
  /-- how many nodes may be explored -/
  nodes : Option Nat
  /-- whether time is up when so many nodes have been explored -/
  overdue : Nat → Bool

/-- The clock is looked at for one node of so many. -/
def clockInterval : Nat := 256

namespace Limits

/-- No limits. -/
def free : Limits := ⟨none, fun _ => false⟩

/-- Whether a limit is met when the node with a number is explored. -/
def met (limits : Limits) (number : Nat) : Bool :=
  limits.nodes.any (· < number) || (number % clockInterval == 1 && limits.overdue number)

end Limits

/-- What a search has come to so far. No search lasts until one of its counts leaves the
range of a machine word. -/
structure Tally where
  incumbent : Incumbent
  explored : Nat
  cutByBound : Nat
  cutByReach : Nat
  accepted : Nat
  /-- whether a limit was met -/
  stopped : Bool
  deriving DecidableEq

namespace Tally

/-- Nothing so far. -/
def fresh : Tally := ⟨.fresh, 0, 0, 0, 0, false⟩

/-- Whether the node that is explored now is past a limit. -/
def pastLimit (t : Tally) (limits : Limits) : Bool := t.stopped || limits.met t.explored

end Tally

namespace Model

/-- The schedule of a draft, to which no rule objects. -/
def judged (m : Model) (d : Draft) : Solving Schedule := do
  let schedule ← d.scheduleChecked
  match ← m.verdict schedule with
  | [] => return schedule
  | breaches => throw (.error (.inconsistency (breaches.map Breach.report)))

/-- Judges the schedule of a draft, and offers it to the incumbent. -/
def submit (m : Model) (d : Draft) (t : Tally) : Solving Tally := do
  let schedule ← m.judged d
  return { t with
    incumbent := (t.incumbent.offer schedule).2
    accepted := t.accepted + 1 }

/-- Goes by what lies ahead: the nodes to visit, and the tally after it. -/
def follow (m : Model) (t : Tally) : Outlook → Solving (List SearchNode × Tally)
  | .closed => return ([], t)
  | .unreachable => return ([], { t with cutByReach := t.cutByReach + 1 })
  | .complete d => return ([], ← m.submit d t)
  | .children nodes => return (nodes, t)

/-- A number of messages that any completion of a draft has at least. -/
def leastCost (m : Model) (d : Draft) : Checked Nat := do
  fitting (d.messages.size + (← m.stillNeeded d))

/-- Explores a node: the nodes below it that are to be explored, and the tally
after it. -/
def visit (m : Model) (limits : Limits) (n : SearchNode) (t : Tally) :
    Solving (List SearchNode × Tally) := do
  let t := { t with explored := t.explored + 1 }
  if t.pastLimit limits then return ([], { t with stopped := true })
  let needed ← m.leastCost n.draft
  if t.incumbent.bound ≤ needed then
    return ([], { t with cutByBound := t.cutByBound + 1 })
  m.follow t (← m.branch n)

/-! ## The search ends -/

/-- A bound on the number of nodes that are to be explored from here on. -/
def weight (m : Model) (pending : List SearchNode) : Nat :=
  pending.foldr (fun n total => Nat.pow 3 (m.height n) + total) 0

theorem ofChecked_eq_ok {α : Type} {x : Checked α} {a : α} :
    Solving.ofChecked x = .ok a ↔ x = .ok a := by
  cases x <;> simp [Solving.ofChecked]

theorem solving_bind_eq_ok {α β : Type} {x : Solving α} {f : α → Solving β} {b : β} :
    (x >>= f) = .ok b ↔ ∃ a, x = .ok a ∧ f a = .ok b := by
  cases x with
  | error e => simp [bind, Except.bind]
  | ok a => simp [bind, Except.bind]

theorem follow_eq_ok {m : Model} {t t' : Tally} {outlook : Outlook} {nodes : List SearchNode}
    (h : m.follow t outlook = .ok (nodes, t')) :
    (nodes = [] ∧ t'.incumbent = t.incumbent ∧ t'.explored = t.explored) ∨
      (∃ leaf, outlook = .complete leaf ∧ nodes = [] ∧ m.submit leaf t = .ok t') ∨
      (outlook = .children nodes ∧ t' = t) := by
  cases outlook with
  | closed =>
    cases h
    exact .inl ⟨rfl, rfl, rfl⟩
  | unreachable =>
    cases h
    exact .inl ⟨rfl, rfl, rfl⟩
  | complete leaf =>
    obtain ⟨after, hsubmit, h⟩ := solving_bind_eq_ok.1 h
    cases h
    exact .inr (.inl ⟨leaf, rfl, rfl, hsubmit⟩)
  | children nodes =>
    cases h
    exact .inr (.inr ⟨rfl, rfl⟩)

theorem nodes_of_follow {m : Model} {t t' : Tally} {outlook : Outlook}
    {nodes : List SearchNode} (h : m.follow t outlook = .ok (nodes, t')) :
    nodes = [] ∨ outlook = .children nodes := by
  rcases follow_eq_ok h with ⟨hnone, _⟩ | ⟨_, _, hnone, _⟩ | ⟨hchildren, _⟩
  · exact .inl hnone
  · exact .inl hnone
  · exact .inr hchildren

/-- How a visit goes: the node is left alone, or it branches. -/
theorem visit_eq_ok {m : Model} {limits : Limits} {n : SearchNode} {t t' : Tally}
    {nodes : List SearchNode} (h : m.visit limits n t = .ok (nodes, t')) :
    (nodes = [] ∧ t'.incumbent = t.incumbent ∧ t'.explored = t.explored + 1) ∨
      ∃ outlook, m.branch n = .ok outlook ∧
        m.follow { t with explored := t.explored + 1 } outlook = .ok (nodes, t') := by
  unfold visit at h
  simp only at h
  split at h
  · cases h
    exact .inl ⟨rfl, rfl, rfl⟩
  · obtain ⟨needed, _, h⟩ := solving_bind_eq_ok.1 h
    split at h
    · cases h
      exact .inl ⟨rfl, rfl, rfl⟩
    · obtain ⟨outlook, hbranch, hfollow⟩ := solving_bind_eq_ok.1 h
      exact .inr ⟨outlook, ofChecked_eq_ok.1 hbranch, hfollow⟩

theorem nodes_of_visit {m : Model} {limits : Limits} {n : SearchNode} {t t' : Tally}
    {nodes : List SearchNode} (h : m.visit limits n t = .ok (nodes, t')) :
    nodes = [] ∨ m.branch n = .ok (.children nodes) := by
  rcases visit_eq_ok h with ⟨hnone, _⟩ | ⟨outlook, hbranch, hfollow⟩
  · exact .inl hnone
  · rcases nodes_of_follow hfollow with hnone | rfl
    · exact .inl hnone
    · exact .inr hbranch

theorem weight_cons (m : Model) (n : SearchNode) (rest : List SearchNode) :
    m.weight (n :: rest) = Nat.pow 3 (m.height n) + m.weight rest := rfl

theorem weight_append (m : Model) (a b : List SearchNode) :
    m.weight (a ++ b) = m.weight a + m.weight b := by
  induction a with
  | nil => exact (Nat.zero_add _).symm
  | cons n a ih => rw [List.cons_append, weight_cons, weight_cons, ih, Nat.add_assoc]

/-- Two nodes weigh less than one that is higher than both. -/
theorem weight_lt_of_children {m : Model} {n : SearchNode} {nodes : List SearchNode}
    (htwo : nodes.length ≤ 2) (hsmall : ∀ c ∈ nodes, m.height c < m.height n) :
    m.weight nodes < Nat.pow 3 (m.height n) := by
  have hpow : ∀ c ∈ nodes, 3 * Nat.pow 3 (m.height c) ≤ Nat.pow 3 (m.height n) := fun c hc =>
    calc 3 * Nat.pow 3 (m.height c) = Nat.pow 3 (m.height c + 1) := Nat.pow_succ'.symm
      _ ≤ Nat.pow 3 (m.height n) := Nat.pow_le_pow_right (by decide) (hsmall c hc)
  have hpos : 0 < Nat.pow 3 (m.height n) := Nat.pow_pos (by decide)
  match nodes, htwo with
  | [], _ => exact hpos
  | [a], _ =>
    have ha := hpow a (by simp)
    simp only [weight, List.foldr_cons, List.foldr_nil]
    omega
  | [a, b], _ =>
    have ha := hpow a (by simp)
    have hb := hpow b (by simp)
    simp only [weight, List.foldr_cons, List.foldr_nil]
    omega

theorem weight_lt_of_visit {m : Model} {limits : Limits} {n : SearchNode} {t t' : Tally}
    {nodes : List SearchNode} (h : m.visit limits n t = .ok (nodes, t')) :
    m.weight nodes < Nat.pow 3 (m.height n) := by
  rcases nodes_of_visit h with rfl | hb
  · exact Nat.pow_pos (by decide)
  · exact weight_lt_of_children (length_children_of_branch hb) (height_of_branch hb)

/-- New nodes go to the front of the list when a node is searched to its end,
and else to the end. -/
def enqueue (deep : Bool) (nodes rest : List SearchNode) : List SearchNode :=
  if deep then nodes ++ rest else rest ++ nodes

theorem weight_enqueue (m : Model) (deep : Bool) (nodes rest : List SearchNode) :
    m.weight (enqueue deep nodes rest) = m.weight nodes + m.weight rest := by
  cases deep
  · exact (weight_append m rest nodes).trans (Nat.add_comm _ _)
  · exact weight_append m nodes rest

/-- Explores all pending nodes, one after another. From the moment when there
are `size` of them, each is searched to its end (`deep`). -/
def visitAll (m : Model) (limits : Limits) (size : Nat) (deep : Bool)
    (pending : List SearchNode) (t : Tally) : Solving Tally :=
  match pending with
  | [] => .ok t
  | n :: rest =>
    if t.stopped then .ok t
    else
      match _h : m.visit limits n t with
      | .error e => .error e
      | .ok (nodes, t') =>
        let deep := deep || size ≤ (n :: rest).length
        m.visitAll limits size deep (enqueue deep nodes rest) t'
termination_by m.weight pending
decreasing_by
  have hlt := weight_lt_of_visit _h
  rw [weight_enqueue, weight_cons]
  omega

end Model

end ChainPropagation
