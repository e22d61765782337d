import ChainPropagation.Proofs.Flood
import ChainPropagation.Proofs.Needed
import ChainPropagation.Search.Tree

/-!
# The search tree of a model

Below a sound node lie sound nodes, and whatever is complete is lawful: to
branch meets no fault (`SearchNode.Sound.branch_eq`).

`Outlook.Leads` relates what lies below a node to the complete drafts that are
found there.  None of them has fewer messages than the measure of the node says
(`SearchNode.Leads.le_size`), so nothing that is cut off by the bound is better
than the incumbent.
-/

namespace ChainPropagation

namespace Draft

variable {m : Model} {d : Draft}

/-- What lies below the beginning of a step.  A draft that can finish is never
closed: at the horizon it is complete. -/
theorem Consistent.enter_eq (h : d.Consistent m) (hm : m.WellFormed) (hquiet : d.Quiet) :
    (¬ d.CanFinish m ∧ m.enter d = .ok .unreachable) ∨
      ∃ e, Opens m d (d.Ready m) e ∧
        ((e.EndsHold m ∧ m.enter d = .ok (.complete e.settled)) ∨
          (¬ e.EndsHold m ∧ d.time < m.horizon ∧ ∃ links, m.usefulLinks e = .ok links ∧
            m.enter d = .ok (.children [{ draft := e, undecided := links }]))) := by
  have hasked := h.decides_canFinish hm hquiet
  by_cases hcan : d.CanFinish m
  · obtain ⟨e, hopens, ⟨hends, hbegin⟩ | ⟨hends, hbegin⟩⟩ := h.beginStep_eq hm hquiet
    · have henter : m.enter d = .ok (.complete e.settled) := by
        simp [Model.enter, hasked.eq_true hcan, hbegin]
      exact .inr ⟨e, hopens, .inl ⟨hends, henter⟩⟩
    · have htime := hopens.time_eq
      have hlt : d.time < m.horizon := by
        apply Nat.lt_of_le_of_ne h.time_le
        intro hend
        exact hends (hopens.endsHold_iff_canFinishBy.2 (hend ▸ hcan))
      obtain ⟨links, hlinks, _⟩ := hopens.consistent.usefulLinks_eq hm
      have hearly : ¬ m.horizon ≤ e.time := by omega
      have henter : m.enter d = .ok (.children [{ draft := e, undecided := links }]) := by
        simp [Model.enter, hasked.eq_true hcan, hbegin, hearly, hlinks]
      exact .inr ⟨e, hopens, .inr ⟨hends, hlt, links, hlinks, henter⟩⟩
  · have henter : m.enter d = .ok .unreachable := by
      simp [Model.enter, hasked.eq_false hcan]
    exact .inl ⟨hcan, henter⟩

end Draft

/-! ## Sound nodes -/

/-- A sound draft before the horizon. -/
structure SearchNode.Sound (m : Model) (n : SearchNode) : Prop where
  draft : n.draft.Sound m
  early : n.draft.time < m.horizon

/-- What is complete is done, and what is to be explored is sound. -/
def Outlook.Sound (m : Model) : Outlook → Prop
  | .closed => True
  | .unreachable => True
  | .complete d => d.Finished m
  | .children nodes => ∀ c ∈ nodes, c.Sound m

variable {m : Model} {n : SearchNode} {d : Draft}

theorem Draft.Sound.enter_sound (h : d.Sound m) (hm : m.WellFormed) (hquiet : d.Quiet) :
    ∃ outlook, m.enter d = .ok outlook ∧ outlook.Sound m := by
  rcases h.enter_eq hm hquiet with ⟨_, hok⟩ | ⟨e, hopens, ⟨hends, hok⟩ | ⟨_, hlt, links, _, hok⟩⟩
  · exact ⟨_, hok, trivial⟩
  · have hdone : e.settled.Finished m := (hopens.sound hquiet h).finished hends
    exact ⟨_, hok, hdone⟩
  · have hsound : (Outlook.children [{ draft := e, undecided := links }]).Sound m := by
      intro c hc
      cases List.mem_singleton.1 hc
      exact { draft := hopens.sound hquiet h, early := hopens.time_eq ▸ hlt }
    exact ⟨_, hok, hsound⟩

namespace Model

/-- With nothing left to decide a silent step is closed. -/
theorem branch_of_silent {d : Draft} (hsilent : d.isSilent = true) :
    m.branch { draft := d, undecided := [] } = .ok .closed := by
  rw [branch]
  exact if_pos hsilent

/-- With nothing left to decide any other step is over. -/
theorem branch_of_not_silent {d : Draft} (h : d.Consistent m) (hlt : d.time < m.horizon)
    (hsilent : d.isSilent = false) :
    m.branch { draft := d, undecided := [] } = m.enter d.delivered := by
  rw [branch]
  simp only [hsilent, Bool.false_eq_true, if_false]
  rw [h.passTime_eq hlt]
  rfl

theorem branch_of_useful {d : Draft} {link : Nat × Nat} {rest : List (Nat × Nat)}
    (h : d.Consistent m) (hm : m.WellFormed) (huseful : d.Useful m link.1 link.2) :
    m.branch { draft := d, undecided := link :: rest } = .ok (.children
      [{ draft := d, undecided := rest },
        { draft := d.sent link.1 link.2, undecided := rest }]) := by
  have hasked := (h.decides_isUseful hm link.1 link.2).eq_true huseful
  simp [branch, hasked, h.send_eq huseful.beside]

theorem branch_of_not_useful {d : Draft} {link : Nat × Nat} {rest : List (Nat × Nat)}
    (h : d.Consistent m) (hm : m.WellFormed) (huseful : ¬ d.Useful m link.1 link.2) :
    m.branch { draft := d, undecided := link :: rest } =
      .ok (.children [{ draft := d, undecided := rest }]) := by
  have hasked := (h.decides_isUseful hm link.1 link.2).eq_false huseful
  simp [branch, hasked]

end Model

/-- To branch at a sound node meets no fault. -/
theorem SearchNode.Sound.branch_eq (h : n.Sound m) (hm : m.WellFormed) :
    ∃ outlook, m.branch n = .ok outlook ∧ outlook.Sound m := by
  obtain ⟨d, undecided⟩ := n
  cases undecided with
  | nil =>
      cases hsilent : d.isSilent with
      | true => exact ⟨_, Model.branch_of_silent hsilent, trivial⟩
      | false =>
          rw [Model.branch_of_not_silent h.draft.toConsistent h.early hsilent]
          exact (h.draft.delivered h.early).enter_sound hm (Draft.quiet_delivered d)
  | cons link rest =>
      by_cases huseful : d.Useful m link.1 link.2
      · refine ⟨_, Model.branch_of_useful h.draft.toConsistent hm huseful, fun c hc => ?_⟩
        rcases List.mem_cons.1 hc with rfl | hc
        · exact { draft := h.draft, early := h.early }
        · cases List.mem_singleton.1 hc
          exact { draft := (h.draft.send_eq huseful).2, early := h.early }
      · refine ⟨_, Model.branch_of_not_useful h.draft.toConsistent hm huseful, fun c hc => ?_⟩
        cases List.mem_singleton.1 hc
        exact { draft := h.draft, early := h.early }

/-! ## Complete drafts below a node -/

/-- The complete drafts that are found below a node, by what lies below it. -/
inductive Outlook.Leads (m : Model) : Outlook → Draft → Prop where
  | complete {d : Draft} : Leads m (.complete d) d
  | child {nodes : List SearchNode} {c : SearchNode} {outlook : Outlook} {d : Draft}
      (mem : c ∈ nodes) (below : m.branch c = .ok outlook) (rest : Leads m outlook d) :
      Leads m (.children nodes) d

/-- The complete drafts that are found below a node. -/
def SearchNode.Leads (m : Model) (n : SearchNode) (d : Draft) : Prop :=
  ∃ outlook, m.branch n = .ok outlook ∧ outlook.Leads m d

theorem SearchNode.Leads.of_child {nodes : List SearchNode} {c : SearchNode}
    (h : c.Leads m d) (hbranch : m.branch n = .ok (.children nodes)) (hmem : c ∈ nodes) :
    n.Leads m d := by
  obtain ⟨outlook, hbelow, hleads⟩ := h
  exact ⟨_, hbranch, .child hmem hbelow hleads⟩

/-! ## The measure below a node -/

/-- What is complete has at least so many messages, and the measure of what is
to be explored is no less. -/
def Outlook.AtLeast (m : Model) (most : Nat) : Outlook → Prop
  | .closed => True
  | .unreachable => True
  | .complete d => most ≤ d.messages.size
  | .children nodes => ∀ c ∈ nodes, c.draft.AtLeast m most

/-- The measure does not fall from one step to the next. -/
theorem Draft.AtLeast.enter {most : Nat} (hleast : d.AtLeast m most) (h : d.Consistent m)
    (hm : m.WellFormed) (hlt : d.time < m.horizon) {outlook : Outlook}
    (henter : m.enter d.delivered = .ok outlook) : outlook.AtLeast m most := by
  rcases (h.delivered hlt).enter_eq hm (Draft.quiet_delivered d) with
    ⟨_, hok⟩ | ⟨e, hopens, ⟨hends, hok⟩ | ⟨_, _, links, _, hok⟩⟩
  · rw [hok] at henter
    cases henter
    trivial
  · rw [hok] at henter
    cases henter
    have hopened := (hleast.delivered h hm hlt).opens (h.delivered hlt) hm hopens
    exact hopened.le_size hopens.consistent hm hends
  · rw [hok] at henter
    cases henter
    have hopened := (hleast.delivered h hm hlt).opens (h.delivered hlt) hm hopens
    intro c hc
    cases List.mem_singleton.1 hc
    exact hopened

/-- Nor does it fall from a node to the nodes below it. -/
theorem SearchNode.Sound.at_least (h : n.Sound m) (hm : m.WellFormed) {most : Nat}
    (hleast : n.draft.AtLeast m most) {outlook : Outlook} (hbranch : m.branch n = .ok outlook) :
    outlook.AtLeast m most := by
  obtain ⟨g, undecided⟩ := n
  cases undecided with
  | nil =>
      cases hsilent : g.isSilent with
      | true =>
          rw [Model.branch_of_silent hsilent] at hbranch
          cases hbranch
          trivial
      | false =>
          rw [Model.branch_of_not_silent h.draft.toConsistent h.early hsilent] at hbranch
          exact hleast.enter h.draft.toConsistent hm h.early hbranch
  | cons link rest =>
      by_cases huseful : g.Useful m link.1 link.2
      · rw [Model.branch_of_useful h.draft.toConsistent hm huseful] at hbranch
        cases hbranch
        intro c hc
        rcases List.mem_cons.1 hc with rfl | hc
        · exact hleast
        · cases List.mem_singleton.1 hc
          exact hleast.sent h.draft.toConsistent hm huseful.beside huseful.some_held
      · rw [Model.branch_of_not_useful h.draft.toConsistent hm huseful] at hbranch
        cases hbranch
        intro c hc
        cases List.mem_singleton.1 hc
        exact hleast

/-- No complete draft below a node has fewer messages than its measure says. -/
theorem SearchNode.Leads.le_size (hleads : n.Leads m d) (h : n.Sound m) (hm : m.WellFormed)
    {most : Nat} (hleast : n.draft.AtLeast m most) : most ≤ d.messages.size := by
  obtain ⟨outlook, hbranch, hleads⟩ := hleads
  induction hleads generalizing n with
  | complete => exact h.at_least hm hleast hbranch
  | child mem below _ ih =>
      have hbelow := h.at_least hm hleast hbranch _ mem
      obtain ⟨outlook, hok, hsound⟩ := h.branch_eq hm
      rw [hbranch] at hok
      cases hok
      exact ih (hsound _ mem) hbelow below

end ChainPropagation
