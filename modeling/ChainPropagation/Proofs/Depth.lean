import ChainPropagation.Proofs.Horizon
import ChainPropagation.Proofs.Runs

/-!
# How deep a search goes

A horizon bounds the depth of the search tree, but it is not what keeps a search
short.  Every message on the way to a node is of use, and a step in which nothing is
sent has nothing below it; so the nodes are gainful (`SearchNode.Within.gainful`).
Then the greatest number of messages bounds the time, the length of a path and the
number of nodes that are explored, whatever the horizon and the bank
(`search_bounded`).

For the size of the tree the height of a node is taken again, with the number of
messages in place of the horizon.
-/

namespace ChainPropagation

/-- No path of a search tree is as long as this. -/
def Chain.deepest (c : Chain) : Nat := (c.mostMessages + 1) * (c.links.length + 1)

variable {m : Model} {n c : SearchNode} {t t' : Tally} {nodes : List SearchNode}
  {limits : Limits} {σ : Type}

/-- A run that sends something in each step is gainful. -/
theorem Draft.gainful_of_speaks {d : Draft}
    (hrun : Relation.ReflTransGen (Draft.Speaks m) (.start m) d) (hm : m.WellFormed)
    (hlt : m.horizon < storageLimit) : d.Gainful m := by
  induction hrun with
  | refl => exact gainful_start m
  | @tail d g run step ih =>
      have hd := sound_of_speaks run hm hlt
      obtain ⟨e, f, links, hopens, _, hdecided, _, _, rfl⟩ :=
        step.1.step_eq hm hd.1.toConsistent hd.2
      have hmore : e.messages.size < f.messages.size := hopens.messages_eq ▸ step.2
      exact hopens.gainful_delivered hm ih hdecided hmore

/-- So is a node of the tree. -/
theorem SearchNode.Within.gainful (h : n.Within m) (hm : m.WellFormed)
    (hlt : m.horizon < storageLimit) : n.draft.Gainful m := by
  obtain ⟨last, e, links, hrun, hbegin, hdecided⟩ := h
  have hlast := Draft.sound_of_speaks hrun hm hlt
  have hopens := hlast.1.opens_of_executeReady hm (Model.beginStep_eq_continuing hbegin)
  have hgain := Draft.gainful_of_speaks hrun hm hlt
  exact hdecided.gainful hm hopens.consistent (hopens.gainful hgain)

namespace Model

/-! ## The nodes that a search creates -/

/-- The nodes that a search creates under some limits, and how many steps of the tree
they are below its root: the one that it begins with, and those that a visit puts on
the list of pending nodes. -/
inductive Creates (m : Model) : (depth : Nat) → SearchNode → Prop where
  | root {blank : Draft} {outlook : Outlook} {t t' : Tally} {roots : List SearchNode}
      {n : SearchNode} (begins : m.blankDraft = .ok blank) (enters : m.enter blank = .ok outlook)
      (follows : m.follow t outlook = .ok (roots, t')) (mem : n ∈ roots) : Creates m 0 n
  | child {depth : Nat} {n c : SearchNode} {limits : Limits} {t t' : Tally}
      {nodes : List SearchNode} (parent : Creates m depth n)
      (visits : m.visit limits n t = .ok (nodes, t')) (mem : c ∈ nodes) : Creates m (depth + 1) c

/-- A search begins with a blank draft, which does not have too many times. -/
theorem Creates.horizon_lt {depth : Nat} (h : m.Creates depth n) (hm : m.WellFormed) :
    m.horizon < storageLimit := by
  induction h with
  | root begins _ _ _ => exact Draft.horizon_lt_of_blankDraft hm begins
  | child _ _ _ ih => exact ih

theorem Creates.within {depth : Nat} (h : m.Creates depth n) (hm : m.WellFormed) :
    n.Within m := by
  have hlt := h.horizon_lt hm
  induction h with
  | root begins enters follows mem =>
      rw [Draft.eq_start_of_blankDraft begins] at enters
      exact within_of_follow follows (Outlook.runs_of_enter .refl enters) _ mem
  | child _ visits mem ih => exact within_of_visit visits hm hlt ih _ mem

/-- Nodes that belong to runs get less high on each path, even if the horizon were as
short as the number of messages allows. -/
theorem height_lt_of_within (hm : m.WellFormed) (hlt : m.horizon < storageLimit)
    (hbranch : m.branch n = .ok (.children nodes))
    (hc : c ∈ nodes) (hwithin : c.Within m) :
    (m.withHorizon m.chain.mostMessages).height c <
      (m.withHorizon m.chain.mostMessages).height n := by
  have hgain := hwithin.gainful hm hlt
  apply height_lt_of_step
  rcases step_of_branch hbranch c hc with hsame | ⟨htime, _, hlinks⟩
  · exact .inl hsame
  · exact .inr ⟨htime, Nat.le_trans hgain.time_le hgain.size_le_most, hlinks⟩

theorem height_lt_deepest (hlinks : n.undecided.length ≤ m.chain.links.length) :
    (m.withHorizon m.chain.mostMessages).height n < m.chain.deepest := by
  have hleft : m.chain.mostMessages - n.draft.time ≤ m.chain.mostMessages := Nat.sub_le _ _
  have hheight : (m.withHorizon m.chain.mostMessages).height n ≤
      m.chain.mostMessages * (m.chain.links.length + 1) + m.chain.links.length :=
    Nat.add_le_add (Nat.mul_le_mul_right _ hleft) hlinks
  rw [Chain.deepest, Nat.succ_mul]
  omega

/-- A node and what may be below it are no deeper than the bound. -/
theorem Creates.depth_lt {depth : Nat} (h : m.Creates depth n) (hm : m.WellFormed) :
    depth + (m.withHorizon m.chain.mostMessages).height n < m.chain.deepest := by
  induction h with
  | root _ enters follows mem =>
      rcases nodes_of_follow follows with rfl | rfl
      · cases mem
      · rw [Nat.zero_add]
        exact height_lt_deepest ((children_of_enter enters).2 _ mem).2.2
  | child parent visits mem ih =>
      have hcreated := Creates.child parent visits mem
      have hwithin := hcreated.within hm
      rcases nodes_of_visit visits with rfl | hbranch
      · cases mem
      · have hless := height_lt_of_within hm (hcreated.horizon_lt hm) hbranch mem hwithin
        omega

/-! ## The nodes that a search explores -/

/-- A search under way that stays below a bound: what was explored and what the
pending nodes weigh do not exceed it together. -/
structure Spares (m : Model) (most : Nat) (pending : List SearchNode) (t : Tally) : Prop where
  within : ∀ n ∈ pending, n.Within m
  explored_le : t.explored + (m.withHorizon m.chain.mostMessages).weight pending ≤ most

namespace Spares

variable {most : Nat}

/-- Each visit counts one node and takes at least as much from what is pending. -/
theorem visit {rest : List SearchNode} (h : m.Spares most (n :: rest) t) (hm : m.WellFormed)
    (hlt : m.horizon < storageLimit) (hvisit : m.visit limits n t = .ok (nodes, t')) (deep : Bool) :
    m.Spares most (enqueue deep nodes rest) t' := by
  obtain ⟨hn, hrest⟩ := List.forall_mem_cons.1 h.within
  have hnodes := within_of_visit hvisit hm hlt hn
  have hless : (m.withHorizon m.chain.mostMessages).weight nodes <
      Nat.pow 3 ((m.withHorizon m.chain.mostMessages).height n) := by
    rcases nodes_of_visit hvisit with rfl | hbranch
    · exact Nat.pow_pos (by decide)
    · exact weight_lt_of_children (length_children_of_branch hbranch) fun c hc =>
        height_lt_of_within hm hlt hbranch hc (hnodes c hc)
  have hbound := h.explored_le
  rw [weight_cons] at hbound
  refine { within := forall_mem_enqueue.2 ⟨hnodes, hrest⟩, explored_le := ?_ }
  rw [explored_of_visit hvisit, weight_enqueue]
  omega

theorem visitAll {size : Nat} {deep : Bool} {pending : List SearchNode}
    (h : m.Spares most pending t) (hm : m.WellFormed) (hlt : m.horizon < storageLimit)
    (hall : m.visitAll limits size deep pending t = .ok t') : t'.explored ≤ most := by
  obtain ⟨left, hlast⟩ := visitAll_induct (m.Spares most)
    (fun _ _ _ _ _ h hvisit deep => h.visit hm hlt hvisit deep) hall h
  exact Nat.le_trans (Nat.le_add_right _ _) hlast.explored_le

end Spares

theorem explored_of_headStart {g : Generator σ} {o : Options} (hstart : m.headStart g o = .ok t) :
    t.explored = 0 := by
  refine headStart_induct (fun t => t.explored = 0) rfl ?_ hstart
  intro d t t' hsubmit ht
  rw [(submit_eq_ok hsubmit).2]
  exact ht

/-- A whole search explores no more nodes than a tree of the greatest depth weighs. -/
theorem explored_le_of_search (hm : m.WellFormed) (hlt : m.horizon < storageLimit)
    {g : Generator σ} {o : Options} {clock : Nat → Nat}
    (hsearch : m.search g o clock = .ok t) : t.explored ≤ 3 ^ m.chain.deepest := by
  obtain ⟨begun, outlook, roots, entered, hstart, henter, hfollow, hall⟩ := search_eq_ok hsearch
  have hnone : entered.explored = 0 :=
    (explored_of_follow hfollow).trans (explored_of_headStart hstart)
  have hweight : (m.withHorizon m.chain.mostMessages).weight roots ≤ 3 ^ m.chain.deepest := by
    rcases nodes_of_follow hfollow with rfl | rfl
    · exact Nat.zero_le _
    · obtain ⟨hone, hroots⟩ := children_of_enter henter
      obtain ⟨root, rfl⟩ := List.length_eq_one_iff.1 hone
      have hheight := height_lt_deepest (hroots root (by simp)).2.2
      exact Nat.pow_le_pow_right (by decide) (Nat.le_of_lt hheight)
  have hspares : m.Spares (3 ^ m.chain.deepest) roots entered :=
    { within := within_of_follow hfollow (Outlook.runs_of_enter .refl henter)
      explored_le := by rwa [hnone, Nat.zero_add] }
  exact hspares.visitAll hm hlt hall

/-- A head start that comes to something has found a schedule, and has judged it, so
that a table could be stored. -/
theorem exists_lawful_of_headStart (hm : m.WellFormed) {g : Generator σ} {o : Options}
    (hstart : m.headStart g o = .ok t) : m.Storable ∧ ∃ s, m.Lawful s := by
  obtain ⟨result, hflood, hstart⟩ := solving_bind_eq_ok.1 hstart
  cases result with
  | none => cases hstart
  | some d =>
      obtain ⟨first, hsubmit, _⟩ := solving_bind_eq_ok.1 hstart
      have hverdict := (submit_eq_ok hsubmit).1
      have hs : m.Storable := by
        by_contra hfull
        rw [verdict_of_not_storable hfull] at hverdict
        cases hverdict
      have hcompletes : m.flood = .ok (some d) := ofChecked_eq_ok.1 hflood
      obtain ⟨flooded, hfloods, _, hsome⟩ := flood_eq hm hs
      rw [hcompletes] at hfloods
      cases hfloods
      exact ⟨hs, hsome.1 rfl⟩

end Model

/-- A search of a built model, under every bank and with whatever horizon put in the
place of its own.  No node that is created has more messages than
`(N + 1) * (N - 2)` for `N` nodes of the chain, nor more time behind it than
messages; so paths of the tree have a length that does not depend on the horizon,
and neither does the number of nodes to explore.  Whenever the flood and the dives
before it come to something, the search ends, and without limits it has been through
the whole tree. -/
theorem search_bounded {p : Problem} {bank : RuleBank} {m : Model} {σ : Type}
    (h : p.model bank = .ok m) (g : Generator σ) (longer : Nat) :
    (∀ depth n, (m.withHorizon longer).Creates depth n →
      n.draft.time ≤ n.draft.messages.size ∧
        n.draft.messages.size ≤ (m.nodes + 1) * (m.nodes - 2) ∧ depth < m.chain.deepest) ∧
      ∀ o clock begun, (m.withHorizon longer).headStart g o = .ok begun →
        ∃ t, (m.withHorizon longer).search g o clock = .ok t ∧
          t.explored ≤ 3 ^ m.chain.deepest ∧
          (o.maxNodes = none → o.maxMilliseconds = none → t.stopped = false) := by
  have hwide : (m.withHorizon longer).WellFormed := (wellFormed_of_model h).congr rfl rfl
  refine ⟨fun depth n hcreated => ?_, fun o clock begun hstart => ?_⟩
  · have hgain := (hcreated.within hwide).gainful hwide (hcreated.horizon_lt hwide)
    have hdepth := hcreated.depth_lt hwide
    exact ⟨hgain.time_le, hgain.size_le_most,
      Nat.lt_of_le_of_lt (Nat.le_add_right _ _) hdepth⟩
  · obtain ⟨hs, hsome⟩ := Model.exists_lawful_of_headStart hwide hstart
    obtain ⟨t, hsearch, hsearched⟩ := Model.search_eq hwide hs hsome g o clock
    have hexplored := Model.explored_le_of_search hwide hs.horizon_lt hsearch
    exact ⟨t, hsearch, hexplored, hsearched.unlimited⟩

/-- The meeting with far more time than it needs: the search begins with a node, and
when it ends it has been through the whole tree. -/
theorem unhurriedMeeting_searched :
    meeting.model .standard = .ok meetingModel ∧
      (∃ n, (meetingModel.withHorizon 99).Creates 0 n ∧ n.draft.messages.size ≤ 18) ∧
      ∃ begun t,
        (meetingModel.withHorizon 99).headStart Xoshiro.generator .standard = .ok begun ∧
        (meetingModel.withHorizon 99).search Xoshiro.generator .standard (fun _ => 0) = .ok t ∧
        t.explored ≤ 3 ^ meetingModel.chain.deepest ∧ t.stopped = false := by
  have hbuilt : meeting.model .standard = .ok meetingModel := rfl
  have hm := wellFormed_of_model hbuilt
  have hlaw : meetingModel.Lawful meetingSchedule :=
    Model.lawful_of_verdict_eq_nil hm (storable_of_model hbuilt) (fun _ hrule => hrule) rfl
  have hwide : (meetingModel.withHorizon 99).WellFormed := hm.congr rfl rfl
  have hs : (meetingModel.withHorizon 99).Storable :=
    { table := by decide
      times := by decide }
  have hlonger : (meetingModel.withHorizon 99).Lawful meetingSchedule :=
    hlaw.of_horizon_le rfl rfl (by decide)
  obtain ⟨begun, hbegun, _⟩ := Model.headStart_eq hwide hs ⟨_, hlonger⟩
    Xoshiro.generator .standard
  obtain ⟨hnodes, hsearches⟩ := search_bounded hbuilt Xoshiro.generator 99
  obtain ⟨t, hsearch, hexplored, hstopped⟩ := hsearches .standard (fun _ => 0) begun hbegun
  refine ⟨hbuilt, ?_, begun, t, hbegun, hsearch, hexplored, hstopped rfl rfl⟩
  have hstart := Draft.consistent_start hs.horizon_lt
  have hquiet := Draft.quiet_start (meetingModel.withHorizon 99)
  have hcan := (Draft.ahead_zero _ _).canFinish hstart hwide hlonger (Nat.le_refl 0) (Nat.zero_le _)
  obtain ⟨n, henter⟩ : ∃ n, (meetingModel.withHorizon 99).enter
      (.start (meetingModel.withHorizon 99)) = .ok (.children [n]) := by
    rcases hstart.enter_eq hwide hquiet with
      ⟨hnot, _⟩ | ⟨e, hopens, ⟨hends, _⟩ | ⟨_, _, _, _, henter⟩⟩
    · exact absurd hcan hnot
    · -- an endpoint has been told nothing yet
      have htold := (hopens.contains_holding 0 1).1 (hends 1 rfl).1
      simp at htold
    · exact ⟨_, henter⟩
  have hroot : (meetingModel.withHorizon 99).Creates 0 n :=
    .root (Draft.blankDraft_eq hs) henter (t := .fresh) rfl (by simp)
  exact ⟨n, hroot, (hnodes 0 n hroot).2.1⟩

end ChainPropagation
