import ChainPropagation.Step

/-!
# The search tree

A node of the search tree is a draft within a step and the links that are not
decided yet. Its children skip the next link or send along it; a link that is
not worth it is skipped. When no link is left, the draft goes on to the next
step, unless nothing was sent: then the next step would bring nothing new.

The tree is finite. `Model.height` bounds the length of a path below a node: a
step takes one decision for each link of the chain, and the horizon bounds the
number of steps.

## Main results

* `height_of_branch` — the children of a node are less high than the node.
* `length_children_of_branch` — a node has at most two children.
-/

namespace ChainPropagation

/-- A draft in the middle of a step. -/
structure SearchNode where
  draft : Draft
  /-- the links that are to be decided, in order -/
  undecided : List (Nat × Nat)
  deriving DecidableEq

/-- What lies below a node. -/
inductive Outlook where
  /-- nothing, as time is up or stands still -/
  | closed
  /-- nothing, as the endpoints cannot complete in time -/
  | unreachable
  /-- a draft that is complete -/
  | complete (d : Draft)
  | children (nodes : List SearchNode)

namespace Model

/-- What lies below a draft at the beginning of a step. -/
def enter (m : Model) (d : Draft) : Checked Outlook := do
  if !(← m.canFinish d) then return .unreachable
  match ← m.beginStep d with
  | .finished d => return .complete d
  | .continuing d =>
    if m.horizon ≤ d.time then return .closed
    return .children [{ draft := d, undecided := ← m.usefulLinks d }]

/-- What lies below a node. -/
def branch (m : Model) (n : SearchNode) : Checked Outlook :=
  match n.undecided with
  | [] => if n.draft.isSilent then .ok .closed else do m.enter (← n.draft.passTime)
  | (sender, receiver) :: rest => do
    let skipped : SearchNode := { n with undecided := rest }
    if ← m.isUseful n.draft sender receiver then
      return .children [skipped, { draft := ← n.draft.send sender receiver, undecided := rest }]
    return .children [skipped]

/-! ## The height of a node -/

/-- A bound on the length of a path below a node. -/
def height (m : Model) (n : SearchNode) : Nat :=
  (m.horizon - n.draft.time) * (m.chain.links.length + 1) + n.undecided.length

theorem children_of_enter {m : Model} {d : Draft} {nodes : List SearchNode}
    (h : m.enter d = .ok (.children nodes)) :
    nodes.length = 1 ∧ ∀ n ∈ nodes, n.draft.time = d.time ∧ d.time < m.horizon ∧
      n.undecided.length ≤ m.chain.links.length := by
  obtain ⟨reachable, _, h⟩ := bind_eq_ok.1 h
  cases reachable
  · cases h
  · obtain ⟨opening, ho, h⟩ := bind_eq_ok.1 h
    cases opening with
    | finished e => cases h
    | continuing e =>
      have ht := time_of_beginStep ho
      by_cases hu : m.horizon ≤ e.time
      · simp [hu, pure, Except.pure] at h
      · simp only [hu, if_false] at h
        obtain ⟨links, hlinks, h⟩ := bind_eq_ok.1 h
        cases h
        refine ⟨rfl, fun n hn => ?_⟩
        cases List.mem_singleton.1 hn
        exact ⟨ht, by omega, length_of_usefulLinks hlinks⟩

/-- How a node branches: a step is over, or its next link is decided. -/
theorem branch_eq_ok {m : Model} {n : SearchNode} {outlook : Outlook}
    (h : m.branch n = .ok outlook) :
    (n.undecided = [] ∧ ((n.draft.isSilent = true ∧ outlook = .closed) ∨
      (n.draft.isSilent = false ∧ ∃ d, n.draft.passTime = .ok d ∧ m.enter d = .ok outlook))) ∨
    ∃ link rest, n.undecided = link :: rest ∧
      ((m.isUseful n.draft link.1 link.2 = .ok false ∧
          outlook = .children [{ n with undecided := rest }]) ∨
        (m.isUseful n.draft link.1 link.2 = .ok true ∧
          ∃ d, n.draft.send link.1 link.2 = .ok d ∧ outlook = .children
            [{ n with undecided := rest }, { draft := d, undecided := rest }])) := by
  unfold branch at h
  split at h
  · rename_i hnil
    refine .inl ⟨hnil, ?_⟩
    split at h
    · rename_i hsilent
      cases h
      exact .inl ⟨hsilent, rfl⟩
    · rename_i hspeaks
      obtain ⟨d, hpass, h⟩ := bind_eq_ok.1 h
      exact .inr ⟨Bool.not_eq_true _ ▸ hspeaks, d, hpass, h⟩
  · rename_i sender receiver rest hcons
    refine .inr ⟨(sender, receiver), rest, hcons, ?_⟩
    obtain ⟨worth, hworth, h⟩ := bind_eq_ok.1 h
    cases worth
    · cases h
      exact .inl ⟨hworth, rfl⟩
    · obtain ⟨d, hsend, h⟩ := bind_eq_ok.1 h
      cases h
      exact .inr ⟨hworth, d, hsend, rfl⟩

theorem length_children_of_branch {m : Model} {n : SearchNode} {nodes : List SearchNode}
    (h : m.branch n = .ok (.children nodes)) : nodes.length ≤ 2 := by
  rcases branch_eq_ok h with ⟨_, ⟨_, hclosed⟩ | ⟨_, d, _, henter⟩⟩ |
    ⟨_, _, _, ⟨_, hone⟩ | ⟨_, _, _, htwo⟩⟩
  · cases hclosed
  · rw [(children_of_enter henter).1]
    decide
  · cases hone
    simp
  · cases htwo
    simp

/-- A child belongs to the same step and has one link less to decide, or it begins
the next step. -/
theorem step_of_branch {m : Model} {n : SearchNode} {nodes : List SearchNode}
    (h : m.branch n = .ok (.children nodes)) : ∀ c ∈ nodes,
      (c.draft.time = n.draft.time ∧ c.undecided.length < n.undecided.length) ∨
        (c.draft.time = n.draft.time + 1 ∧ c.draft.time < m.horizon ∧
          c.undecided.length ≤ m.chain.links.length) := by
  rcases branch_eq_ok h with ⟨_, ⟨_, hclosed⟩ | ⟨_, d, hpass, henter⟩⟩ |
    ⟨link, rest, hcons, ⟨_, hone⟩ | ⟨_, d, hsend, htwo⟩⟩
  · cases hclosed
  · intro c hc
    obtain ⟨htime, hbefore, hlinks⟩ := (children_of_enter henter).2 c hc
    rw [Draft.time_of_passTime hpass] at htime hbefore
    exact .inr ⟨htime, htime ▸ hbefore, hlinks⟩
  · cases hone
    intro c hc
    cases List.mem_singleton.1 hc
    exact .inl ⟨rfl, by simp [hcons]⟩
  · cases htwo
    intro c hc
    rcases List.mem_cons.1 hc with rfl | hc
    · exact .inl ⟨rfl, by simp [hcons]⟩
    · cases List.mem_singleton.1 hc
      exact .inl ⟨Draft.time_of_send hsend, by simp [hcons]⟩

/-- Such a child is less high than its node. -/
theorem height_lt_of_step {m : Model} {n c : SearchNode}
    (hstep : (c.draft.time = n.draft.time ∧ c.undecided.length < n.undecided.length) ∨
      (c.draft.time = n.draft.time + 1 ∧ c.draft.time ≤ m.horizon ∧
        c.undecided.length ≤ m.chain.links.length)) : m.height c < m.height n := by
  rcases hstep with ⟨htime, hless⟩ | ⟨htime, hbefore, hlinks⟩
  · rw [height, height, htime]
    omega
  · have hleft : m.horizon - n.draft.time = m.horizon - c.draft.time + 1 := by omega
    simp only [height, hleft, Nat.succ_mul]
    omega

theorem height_of_branch {m : Model} {n : SearchNode} {nodes : List SearchNode}
    (h : m.branch n = .ok (.children nodes)) : ∀ c ∈ nodes, m.height c < m.height n := by
  intro c hc
  apply height_lt_of_step
  rcases step_of_branch h c hc with hsame | ⟨htime, hbefore, hlinks⟩
  · exact .inl hsame
  · exact .inr ⟨htime, Nat.le_of_lt hbefore, hlinks⟩

end Model

end ChainPropagation
