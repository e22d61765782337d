import ChainPropagation.Proofs.NodeLimit

/-!
# What a search counts

A search counts the nodes that it explores, why it cut some of them off, the schedules
that it accepted, and how often one of them was better than the best before.  All that a
visit can do to these counters is in `Visited`.

The bound is asked when a node is explored, and a complete draft comes up only after time
has passed and nodes have executed.  Neither sends anything, so the draft has just the
messages that were below the bound (`Visited.of_visit`).  Hence a search accepts nothing
that is not better; only the dives before it can come to a schedule that is no
improvement (`Tally.Balanced`).

## Main result

* `search_improves` — how the counters of an answer compare.
-/

namespace ChainPropagation

variable {σ : Type} {g : Generator σ} {m : Model} {n : SearchNode} {nodes : List SearchNode}
  {t t' : Tally}
  {limits : Limits} {d leaf : Draft} {o : Options} {clock : Nat → Nat}

/-! ## Messages of a complete draft -/

namespace Model

/-- A draft that completes as a step begins has the messages of the steps before. -/
theorem messages_of_enter (h : m.enter d = .ok (.complete leaf)) :
    leaf.messages = d.messages := by
  rcases enter_eq_ok h with hnone | ⟨done, hbegin, heq⟩ | ⟨e, _, ⟨_, heq⟩ | ⟨_, _, _, heq⟩⟩
  · cases hnone
  · cases heq
    obtain ⟨e, hexec, _, hsettle⟩ := beginStep_eq_finished hbegin
    obtain ⟨opened, _, hmessages, _, rfl⟩ := Draft.eq_noted_of_executeReady hexec
    rw [Draft.eq_settled_of_settle hsettle]
    exact hmessages
  · cases heq
  · cases heq

/-- So has a complete draft that lies below a node of the tree. -/
theorem messages_of_branch (h : m.branch n = .ok (.complete leaf)) :
    leaf.messages = n.draft.messages := by
  rcases branch_eq_ok h with ⟨_, ⟨_, heq⟩ | ⟨_, d, hpass, henter⟩⟩ |
    ⟨_, _, _, ⟨_, heq⟩ | ⟨_, _, _, heq⟩⟩
  · cases heq
  · rw [messages_of_enter henter, (Draft.eq_delivered_of_passTime hpass).2]
    rfl
  · cases heq
  · cases heq

end Model

/-! ## One visit -/

/-- A completion has the messages that are there already. -/
theorem Model.size_le_of_leastCost {needed : Nat} (h : m.leastCost d = .ok needed) :
    d.messages.size ≤ needed := by
  obtain ⟨more, _, h⟩ := bind_eq_ok.1 h
  rw [eq_of_fitting h]
  exact Nat.le_add_right _ _

/-- What a visit does to the counters: every visit counts one node, and whatever it
accepts has fewer messages than the bound. -/
inductive Visited (m : Model) (n : SearchNode) (t : Tally) : List SearchNode → Tally → Prop where
  | halted : Visited m n t [] { t with explored := t.explored + 1, stopped := true }
  | bounded : Visited m n t []
      { t with explored := t.explored + 1, cutByBound := t.cutByBound + 1 }
  | closed : Visited m n t [] { t with explored := t.explored + 1 }
  | unreachable : Visited m n t []
      { t with explored := t.explored + 1, cutByReach := t.cutByReach + 1 }
  | improved {leaf : Draft} (below : m.branch n = .ok (.complete leaf))
      (better : leaf.schedule.cost < t.incumbent.bound) : Visited m n t []
      { t with
        explored := t.explored + 1
        accepted := t.accepted + 1
        incumbent := {
          bound := leaf.schedule.cost
          improvements := t.incumbent.improvements + 1
          best := some leaf.schedule } }
  | divided {nodes : List SearchNode} (below : m.branch n = .ok (.children nodes)) :
      Visited m n t nodes { t with explored := t.explored + 1 }

theorem Visited.of_visit (hvisit : m.visit limits n t = .ok (nodes, t')) :
    Visited m n t nodes t' := by
  unfold Model.visit at hvisit
  simp only at hvisit
  split at hvisit
  · cases hvisit
    exact .halted
  · obtain ⟨needed, hneeded, hvisit⟩ := Model.solving_bind_eq_ok.1 hvisit
    have hleast := Model.size_le_of_leastCost (Model.ofChecked_eq_ok.1 hneeded)
    split at hvisit
    · cases hvisit
      exact .bounded
    · rename_i hbelow
      obtain ⟨outlook, hlifted, hfollow⟩ := Model.solving_bind_eq_ok.1 hvisit
      have hbranch : m.branch n = .ok outlook := Model.ofChecked_eq_ok.1 hlifted
      cases outlook with
      | closed =>
          cases hfollow
          exact .closed
      | unreachable =>
          cases hfollow
          exact .unreachable
      | complete leaf =>
          obtain ⟨after, hsubmit, hfollow⟩ := Model.solving_bind_eq_ok.1 hfollow
          cases hfollow
          -- the bound was asked for the messages of the node, and those are all
          have hbetter : leaf.schedule.cost < t.incumbent.bound := by
            rw [Draft.cost_schedule, Model.messages_of_branch hbranch]
            omega
          rw [(Model.submit_eq_ok hsubmit).2, Incumbent.consider_of_lt hbetter]
          exact .improved hbranch hbetter
      | children below =>
          cases hfollow
          exact .divided hbranch

/-! ## Whole searches -/

/-- How the counters of a search compare, when so many accepted schedules may have been
no better than the best before them. -/
structure Tally.Balanced (idle : Nat) (t : Tally) : Prop where
  improvements_pos : 1 ≤ t.incumbent.improvements
  improvements_le : t.incumbent.improvements ≤ t.accepted
  accepted_le : t.accepted ≤ t.incumbent.improvements + idle
  cutByBound_le : t.cutByBound ≤ t.explored

namespace Tally.Balanced

variable {idle : Nat}

/-- No visit accepts a schedule that is no better. -/
theorem visited (h : t.Balanced idle) (hvisited : Visited m n t nodes t') : t'.Balanced idle := by
  obtain ⟨hpos, himproved, haccepted, hcut⟩ := h
  cases hvisited with
  | halted => exact ⟨hpos, himproved, haccepted, Nat.le_succ_of_le hcut⟩
  | bounded => exact ⟨hpos, himproved, haccepted, Nat.succ_le_succ hcut⟩
  | closed => exact ⟨hpos, himproved, haccepted, Nat.le_succ_of_le hcut⟩
  | unreachable => exact ⟨hpos, himproved, haccepted, Nat.le_succ_of_le hcut⟩
  | improved =>
      have hone : t.accepted + 1 ≤ t.incumbent.improvements + 1 + idle := by omega
      exact ⟨Nat.le_add_left 1 _, Nat.succ_le_succ himproved, hone, Nat.le_succ_of_le hcut⟩
  | divided => exact ⟨hpos, himproved, haccepted, Nat.le_succ_of_le hcut⟩

theorem visitAll (h : t.Balanced idle) {size : Nat} {deep : Bool} {pending : List SearchNode}
    (hall : m.visitAll limits size deep pending t = .ok t') : t'.Balanced idle := by
  obtain ⟨_, hlast⟩ := Model.visitAll_induct (fun _ t => t.Balanced idle)
    (fun _ _ _ _ _ h hvisit _ => h.visited (.of_visit hvisit)) hall h
  exact hlast

/-- A dive may. -/
theorem submit (h : t.Balanced idle) (hsubmit : m.submit d t = .ok t') :
    t'.Balanced (idle + 1) := by
  obtain ⟨hpos, himproved, haccepted, hcut⟩ := h
  rw [(Model.submit_eq_ok hsubmit).2]
  unfold Incumbent.consider
  split
  · have hone : t.accepted + 1 ≤ t.incumbent.improvements + 1 + (idle + 1) := by omega
    exact ⟨Nat.le_add_left 1 _, Nat.succ_le_succ himproved, hone, hcut⟩
  · exact ⟨hpos, Nat.le_succ_of_le himproved, Nat.succ_le_succ haccepted, hcut⟩

theorem mono {more : Nat} (h : t.Balanced idle) (hle : idle ≤ more) : t.Balanced more :=
  { h with accepted_le := Nat.le_trans h.accepted_le (Nat.add_le_add_left hle _) }

theorem diveOnce (h : t.Balanced idle) {index : Nat} (honce : m.diveOnce g o t index = .ok t') :
    t'.Balanced (idle + 1) := by
  obtain ⟨result, _, honce⟩ := Model.solving_bind_eq_ok.1 honce
  cases result with
  | none =>
      cases honce
      exact h.mono (Nat.le_succ idle)
  | some d => exact h.submit honce

theorem diveOften (left : Nat) : ∀ {index idle : Nat} {t : Tally}, t.Balanced idle →
    m.diveOften g o left index t = .ok t' → t'.Balanced (idle + left) := by
  induction left with
  | zero =>
      intro index idle t h hall
      cases hall
      exact h
  | succ left ih =>
      intro index idle t h hall
      obtain ⟨between, honce, hrest⟩ := Model.solving_bind_eq_ok.1 hall
      have hlast := ih (h.diveOnce honce) hrest
      rwa [Nat.add_right_comm, Nat.add_assoc] at hlast

/-- The first schedule, that of the flood, is better than none. -/
theorem headStart (hm : m.WellFormed) (hs : m.Storable) (hstart : m.headStart g o = .ok t) :
    t.Balanced o.dives := by
  obtain ⟨result, hflood, hstart⟩ := Model.solving_bind_eq_ok.1 hstart
  obtain ⟨flooded, hfloods, hfinished, _⟩ := Model.flood_eq hm hs
  rw [hfloods] at hflood
  cases hflood
  cases result with
  | none => cases hstart
  | some d =>
      obtain ⟨first, hsubmit, hdives⟩ := Model.solving_bind_eq_ok.1 hstart
      have hbetter : d.schedule.cost < Incumbent.fresh.bound :=
        Nat.lt_of_lt_of_le ((hfinished d rfl).lawful.orderly.cost_lt hs) (by decide)
      have hfirst : first.Balanced 0 := by
        rw [(Model.submit_eq_ok hsubmit).2]
        show Tally.Balanced 0 { Tally.fresh with
          incumbent := Incumbent.fresh.consider d.schedule, accepted := 1 }
        rw [Incumbent.consider_of_lt hbetter]
        exact ⟨Nat.le_refl 1, Nat.le_refl 1, Nat.le_refl 1, Nat.le_refl 0⟩
      have hlast := hfirst.diveOften o.dives hdives
      rwa [Nat.zero_add] at hlast

end Tally.Balanced

namespace Model

/-- With a node between the endpoints nothing is complete at the beginning. -/
theorem enter_start (hm : m.WellFormed) (hs : m.Storable) (hthree : 3 ≤ m.nodes) :
    ∃ outlook, m.enter (.start m) = .ok outlook ∧ ∀ leaf, outlook ≠ .complete leaf := by
  have hinner : m.chain.isInner 1 = true := Chain.isInner_iff.2 ⟨by decide, hthree⟩
  rcases (Draft.consistent_start hs.horizon_lt).enter_eq hm (Draft.quiet_start m) with
    ⟨_, hnone⟩ | ⟨e, hopens, ⟨hends, _⟩ | ⟨_, _, links, _, hnodes⟩⟩
  · exact ⟨_, hnone, nofun⟩
  · rcases (hopens.contains_holding 0 1).1 (hends 1 hinner).1 with hheld | ⟨hown, _⟩
    · rw [Draft.holding_start, NodeSet.contains_empty] at hheld
      cases hheld
    · cases hown
  · exact ⟨_, hnodes, nofun⟩

/-- What is not complete is not accepted. -/
theorem balanced_of_follow {idle : Nat} {outlook : Outlook} (h : t.Balanced idle)
    (hnone : ∀ leaf, outlook ≠ .complete leaf) (hfollow : m.follow t outlook = .ok (nodes, t')) :
    t'.Balanced idle := by
  cases outlook with
  | closed =>
      cases hfollow
      exact h
  | unreachable =>
      cases hfollow
      exact { h with }
  | complete leaf => exact absurd rfl (hnone leaf)
  | children below =>
      cases hfollow
      exact h

theorem balanced_of_search (hm : m.WellFormed) (hs : m.Storable) (hthree : 3 ≤ m.nodes)
    (hsearch : m.search g o clock = .ok t) : t.Balanced o.dives := by
  obtain ⟨begun, outlook, roots, entered, hstart, henter, hfollow, hall⟩ := search_eq_ok hsearch
  obtain ⟨opened, hopened, hnone⟩ := enter_start hm hs hthree
  rw [henter] at hopened
  cases hopened
  have hbegun := Tally.Balanced.headStart hm hs hstart
  exact (balanced_of_follow hbegun hnone hfollow).visitAll hall

end Model

/-- The counters of an answer, for a built model with a node between its endpoints and
without an obstacle, under every bank and with all options and clocks.  The search of the
tree accepts nothing but improvements: not the draft that it begins with, and in each
visit, whatever has been found before, only what has fewer messages than the bound.  The
flood is an improvement too, so that accepted schedules that were no improvement all come
from dives. -/
theorem search_improves {p : Problem} {bank : RuleBank} {m : Model} (h : p.model bank = .ok m)
    (hthree : 3 ≤ m.nodes) (hclear : m.obstacle = .ok none) {σ : Type} (g : Generator σ)
    (o : Options)
    (clock : Nat → Nat) :
    (∃ blank outlook, m.blankDraft = .ok blank ∧ m.enter blank = .ok outlook ∧
      ∀ leaf, outlook ≠ .complete leaf) ∧
    (∀ limits n t nodes t', m.visit limits n t = .ok (nodes, t') →
      (t'.incumbent = t.incumbent ∧ t'.accepted = t.accepted) ∨
      ∃ leaf, m.branch n = .ok (.complete leaf) ∧ leaf.schedule.cost < t.incumbent.bound ∧
        t'.incumbent = {
          bound := leaf.schedule.cost
          improvements := t.incumbent.improvements + 1
          best := some leaf.schedule } ∧
        t'.accepted = t.accepted + 1) ∧
    ∃ found, m.solve g o clock = .ok (.feasible found) ∧
      1 ≤ found.effort.improvements ∧
      found.effort.improvements ≤ found.effort.accepted ∧
      found.effort.accepted ≤ found.effort.improvements + o.dives ∧
      (o.dives = 0 → found.effort.accepted = found.effort.improvements) ∧
      found.effort.cutByBound ≤ found.effort.explored := by
  have hm := wellFormed_of_model h
  have hs := storable_of_model h
  refine ⟨?_, ?_, ?_⟩
  · obtain ⟨outlook, henter, hnone⟩ := Model.enter_start hm hs hthree
    exact ⟨_, outlook, Draft.blankDraft_eq hs, henter, hnone⟩
  · intro limits n t nodes t' hvisit
    cases Visited.of_visit hvisit with
    | improved below better => exact .inr ⟨_, below, better, rfl, rfl⟩
    | _ => exact .inl ⟨rfl, rfl⟩
  · obtain ⟨found, hsolve⟩ := Model.exists_feasible hm hs hclear g o clock
    obtain ⟨t, hsearch, hshown⟩ := Model.search_of_solve hsolve
    obtain ⟨s, _, rfl⟩ := Option.map_eq_some_iff.1 hshown
    obtain ⟨hpos, himproved, haccepted, hcut⟩ := Model.balanced_of_search hm hs hthree hsearch
    refine ⟨_, hsolve, hpos, himproved, haccepted, ?_, hcut⟩
    intro hnone
    rw [hnone] at haccepted
    exact Nat.le_antisymm haccepted himproved

/-- The meeting, searched after no dives and after two. -/
theorem meetingModel_improves :
    meeting.model .standard = .ok meetingModel ∧ 3 ≤ meetingModel.nodes ∧
      meetingModel.obstacle = .ok none ∧
      (∃ found, meetingModel.solve Xoshiro.generator { Options.standard with dives := 0 }
          (fun _ => 0) =
          .ok (.feasible found) ∧ found.effort.accepted = found.effort.improvements) ∧
      ∃ found, meetingModel.solve Xoshiro.generator { Options.standard with dives := 2 }
          (fun _ => 0) =
          .ok (.feasible found) ∧ found.effort.accepted ≤ found.effort.improvements + 2 := by
  have hbuilt : meeting.model .standard = .ok meetingModel := rfl
  have hthree : 3 ≤ meetingModel.nodes := by decide
  have hclear : meetingModel.obstacle = .ok none := rfl
  obtain ⟨_, _, found, hsolve, _, _, _, hnone, _⟩ := search_improves hbuilt hthree hclear
    Xoshiro.generator { Options.standard with dives := 0 } (fun _ => 0)
  obtain ⟨_, _, other, hother, _, _, htwo, _⟩ := search_improves hbuilt hthree hclear
    Xoshiro.generator { Options.standard with dives := 2 } (fun _ => 0)
  exact ⟨hbuilt, hthree, hclear, ⟨found, hsolve, hnone rfl⟩, other, hother, htwo⟩

end ChainPropagation
