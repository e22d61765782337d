import ChainPropagation.Proofs.Estimates
import ChainPropagation.Proofs.Mirror.Drafts

/-!
# Left and right

The program looks at the chain from both ends in different ways: it searches for the node
nearest to the first endpoint from the left and for the one nearest to the last endpoint
from the right, it counts the hops to the latter from the end, and it goes through nodes of
one rank from left to right.  None of this shows: what it says of the mirror image of a
model is the mirror image of what it says of the model.

Estimates are compared by the equations that they satisfy: those of a draft, read from
the other end, satisfy the equations of the mirrored draft, and these have one solution
(`Coheres.mirror`, `Draft.Coheres.unique`).

## Main result

* `mirror_symmetric` — verdicts, feasibility, estimates and the messages still needed.
-/

namespace ChainPropagation

namespace Draft

variable {m : Model} {c : Chain} {d : Draft} {estimates : List (Option Nat)}
  {horizon node origin target holder : Nat}

/-! ## Estimates -/

theorem relayed_mirror (hcap : c.nodes ≤ NodeSet.capacity) (hfits : d.Fits c.nodes horizon)
    (horigin : origin < c.nodes) (htarget : target < c.nodes) (hholder : holder < c.nodes) :
    (d.mirror c).relayed (c.opposite origin) (c.opposite target) (c.opposite holder) =
      d.relayed origin target holder := by
  have hback := Chain.opposite_lt hholder
  have hheld : ((d.mirror c).holding (c.opposite holder)).contains (c.opposite origin) =
      (d.holding holder).contains origin := by
    rw [holding_mirror hcap hfits hback, NodeSet.contains_mirror_opposite hcap horigin,
      Chain.opposite_opposite hholder]
  have hcoming : ((d.mirror c).arriving (c.opposite holder)).contains (c.opposite origin) =
      (d.arriving holder).contains origin := by
    rw [arriving_mirror hcap hfits hback, NodeSet.contains_mirror_opposite hcap horigin,
      Chain.opposite_opposite hholder]
  unfold relayed
  rw [hheld, hcoming, Chain.hops_opposite hholder htarget]
  rfl

theorem getD_reverse_opposite (hlength : estimates.length = c.nodes) (hnode : node < c.nodes) :
    estimates.reverse.getD (c.opposite node) none = estimates.getD node none := by
  have hback : c.opposite node < estimates.length := hlength ▸ Chain.opposite_lt hnode
  rw [List.getD_reverse _ hback, hlength]
  exact congrArg (estimates.getD · none) (Chain.opposite_opposite hnode)

theorem comesBy_mirror (hm : m.WellFormed) (hfits : d.Fits m.chain.nodes m.horizon)
    (hlength : estimates.length = m.chain.nodes) (horigin : origin < m.chain.nodes)
    (htarget : target < m.chain.nodes) (time : Nat) :
    (d.mirror m.chain).ComesBy m.mirror estimates.reverse (m.chain.opposite target)
        (m.chain.opposite origin) time ↔
      d.ComesBy m estimates target origin time := by
  have hfrom : ∀ holder < m.chain.nodes, (d.mirror m.chain).relayed (m.chain.opposite origin)
      (m.chain.opposite target) (m.chain.opposite holder) = d.relayed origin target holder :=
    fun holder hholder => relayed_mirror hm.le_capacity hfits horigin htarget hholder
  unfold ComesBy
  rw [getD_reverse_opposite hlength horigin, Chain.hops_opposite horigin htarget,
    Model.chain_mirror]
  refine or_congr ?_ (and_congr_left fun _ => ?_)
  · rw [← Chain.exists_opposite]
    exact exists_congr fun holder => and_congr_right fun hholder => by rw [hfrom holder hholder]
  · rw [← Chain.forall_opposite]
    exact forall₂_congr fun holder hholder => by rw [hfrom holder hholder]

theorem startsBy_mirror (hm : m.WellFormed) (hfits : d.Fits m.chain.nodes m.horizon)
    (hlength : estimates.length = m.chain.nodes) (hnode : node < m.chain.nodes) (time : Nat) :
    (d.mirror m.chain).StartsBy m.mirror estimates.reverse (m.chain.opposite node) time ↔
      d.StartsBy m estimates node time := by
  have hback := Chain.opposite_lt hnode
  unfold StartsBy
  rw [executedAt_mirror hfits hback, Chain.opposite_opposite hnode,
    Model.rank_mirror_opposite hm hnode]
  cases d.executedAt node with
  | some done => exact Iff.rfl
  | none =>
      refine and_congr_right fun _ => and_congr_right fun _ => ?_
      constructor
      · intro hall other hwaits
        have hother := Chain.lt_of_isInner hwaits.1
        rw [← comesBy_mirror hm hfits hlength hother hnode]
        apply hall
        rw [Model.waits_mirror hm hback, Chain.opposite_opposite hnode,
          Chain.opposite_opposite hother]
        exact ⟨Chain.opposite_lt hother, hwaits⟩
      · intro hall other hwaits
        obtain ⟨hother, hwaits⟩ := (Model.waits_mirror hm hback).1 hwaits
        rw [Chain.opposite_opposite hnode] at hwaits
        rw [← Chain.opposite_opposite hother,
          comesBy_mirror hm hfits hlength (Chain.opposite_lt hother) hnode]
        exact hall _ hwaits

theorem Coheres.mirror (h : d.Coheres m m.ranks.sequence estimates) (hm : m.WellFormed)
    (hfits : d.Fits m.chain.nodes m.horizon) :
    (d.mirror m.chain).Coheres m.mirror m.mirror.ranks.sequence estimates.reverse := by
  have hm' := Model.wellFormed_mirror hm
  have hlength := h.length_eq
  exact
    { length_eq := (List.length_reverse).trans hlength
      met_iff := by
        intro node hmem time
        have hinner : m.chain.isInner node = true := hm'.mem_sequence.1 hmem
        have hnode := Chain.lt_of_isInner hinner
        have hback := Chain.opposite_lt hnode
        have hthere := hm.mem_sequence.2 ((Chain.isInner_opposite hnode).trans hinner)
        rw [← Chain.opposite_opposite hnode, getD_reverse_opposite hlength hback,
          startsBy_mirror hm hfits hlength hback]
        exact h.met_iff _ hthere time
      unknown := by
        intro node hnot
        by_cases hnode : node < m.chain.nodes
        · have hback := Chain.opposite_lt hnode
          rw [← Chain.opposite_opposite hnode, getD_reverse_opposite hlength hback]
          apply h.unknown
          rw [hm.mem_sequence, Chain.isInner_opposite hnode]
          exact fun hinner => hnot (hm'.mem_sequence.2 hinner)
        · apply List.getD_eq_default
          rw [List.length_reverse, hlength]
          exact Nat.le_of_not_lt hnode }

theorem soonestExecutions_mirror (hm : m.WellFormed) (hfits : d.Fits m.chain.nodes m.horizon) :
    ∃ estimates, m.soonestExecutions d = .ok estimates ∧ estimates.length = m.chain.nodes ∧
      Timely m m.ranks.sequence.length estimates ∧
      m.mirror.soonestExecutions (d.mirror m.chain) = .ok estimates.reverse ∧
      Timely m.mirror m.mirror.ranks.sequence.length estimates.reverse := by
  have hm' := Model.wellFormed_mirror hm
  have hback : (d.mirror m.chain).Fits m.mirror.chain.nodes m.mirror.horizon := hfits.mirror
  obtain ⟨estimates, hestimates, htimely, hcoheres⟩ := hfits.exists_coheres hm
  obtain ⟨others, hothers, htimely', hcoheres'⟩ := hback.exists_coheres hm'
  rw [hcoheres'.unique (hcoheres.mirror hm hfits) hm'] at hothers htimely'
  exact ⟨estimates, hestimates, hcoheres.length_eq, htimely, hothers, htimely'⟩

/-- Each endpoint has to wait as long as the other one had. -/
theorem soonestCompletion_mirror (hm : m.WellFormed) (hfits : d.Fits m.chain.nodes m.horizon) :
    ∃ completion, m.soonestCompletion d = .ok completion ∧
      m.mirror.soonestCompletion (d.mirror m.chain) = .ok completion := by
  have hm' := Model.wellFormed_mirror hm
  have hback : (d.mirror m.chain).Fits m.mirror.chain.nodes m.mirror.horizon := hfits.mirror
  obtain ⟨estimates, hestimates, hlength, htimely, hmirrored, htimely'⟩ :=
    soonestExecutions_mirror hm hfits
  have hlength' : estimates.reverse.length = m.mirror.chain.nodes :=
    (List.length_reverse).trans hlength
  refine (soonestCompletion_of_arrivals hm hestimates fun origin hinner target htarget =>
    hfits.soonestArrival_comesBy hm hm.length_sequence_lt htimely hlength
      (Chain.lt_of_isInner hinner) htarget).same
    (soonestCompletion_of_arrivals hm' hmirrored fun origin hinner target htarget =>
      hback.soonestArrival_comesBy hm' hm'.length_sequence_lt htimely' hlength'
        (Chain.lt_of_isInner hinner) htarget) fun time => ?_
  have hends : ∀ origin < m.chain.nodes,
      ((d.mirror m.chain).ComesBy m.mirror estimates.reverse 0 (m.chain.opposite origin) time ∧
        (d.mirror m.chain).ComesBy m.mirror estimates.reverse m.chain.farEnd
          (m.chain.opposite origin) time) ↔
      (d.ComesBy m estimates 0 origin time ∧ d.ComesBy m estimates m.chain.farEnd origin time) := by
    intro origin horigin
    have hfirst := comesBy_mirror hm hfits hlength horigin hm.first_lt time
    have hlast := comesBy_mirror hm hfits hlength horigin hm.farEnd_lt time
    rw [Chain.opposite_farEnd] at hlast
    rw [← hfirst, ← hlast]
    exact and_comm
  refine and_congr_right fun _ => ?_
  constructor
  · intro hall origin hinner
    have horigin := Chain.lt_of_isInner hinner
    rw [← Chain.opposite_opposite horigin]
    refine (hends _ (Chain.opposite_lt horigin)).2 (hall _ ?_)
    exact (Chain.isInner_opposite horigin).trans hinner
  · intro hall origin hinner
    have horigin := Chain.lt_of_isInner hinner
    exact (hends origin horigin).1 (hall _ ((Chain.isInner_opposite horigin).trans hinner))

theorem canFinish_mirror (hm : m.WellFormed) (hfits : d.Fits m.chain.nodes m.horizon) :
    ∃ can, m.canFinish d = .ok can ∧ m.mirror.canFinish (d.mirror m.chain) = .ok can := by
  obtain ⟨completion, hcompletion, hmirrored⟩ := soonestCompletion_mirror hm hfits
  refine ⟨completion.any (· ≤ m.horizon), ?_, ?_⟩
  · rw [Model.canFinish, hcompletion]
    rfl
  · rw [Model.canFinish, hmirrored]
    rfl

/-! ## Messages still needed -/

/-- The first node from the right is the opposite of the first one from the left in the
mirror. -/
theorem nearest_opposite (has has' : Nat → Bool) (origin : Nat)
    (h : ∀ node < c.nodes, has (c.opposite node) = has' node) :
    c.nodes - 1 - ((List.range c.nodes).reverse.find? has).getD origin =
      ((List.range c.nodes).find? has').getD (c.opposite origin) := by
  have hsame : (List.range c.nodes).find? (has ∘ c.opposite) =
      (List.range c.nodes).find? has' :=
    List.find?_congr fun node hmem => h node (List.mem_range.1 hmem)
  rw [← c.map_opposite_range, List.find?_map, hsame]
  cases hfound : (List.range c.nodes).find? has' with
  | none => rfl
  | some node =>
      have hnode := List.mem_range.1 (List.mem_of_find?_eq_some hfound)
      exact Chain.opposite_opposite hnode

theorem hopsFromFirst_mirror (hcap : c.nodes ≤ NodeSet.capacity) (hfits : d.Fits c.nodes horizon)
    (horigin : origin < c.nodes) :
    (d.mirror c).hopsFromFirst c.nodes (c.opposite origin) = d.hopsFromLast c.nodes origin := by
  symm
  refine nearest_opposite _ _ origin fun node hnode => ?_
  rw [holdingNext_mirror hcap hfits hnode, NodeSet.contains_mirror_opposite hcap horigin]

theorem hopsFromLast_mirror (hcap : c.nodes ≤ NodeSet.capacity) (hfits : d.Fits c.nodes horizon)
    (horigin : origin < c.nodes) :
    (d.mirror c).hopsFromLast c.nodes (c.opposite origin) = d.hopsFromFirst c.nodes origin := by
  have hnearest := nearest_opposite
    (fun node => ((d.mirror c).holdingNext node).contains (c.opposite origin))
    (fun node => (d.holdingNext node).contains origin) (c.opposite origin) fun node hnode => by
      rw [holdingNext_mirror hcap hfits (Chain.opposite_lt hnode), Chain.opposite_opposite hnode,
        NodeSet.contains_mirror_opposite hcap horigin]
  rw [Chain.opposite_opposite horigin] at hnearest
  exact hnearest

/-- The largest number for a member of a set, and for one of its mirror image. -/
theorem foldl_max_mirror (hcap : c.nodes ≤ NodeSet.capacity) {set : NodeSet}
    (hin : ∀ node, set.contains node = true → node < c.nodes) {hops hops' : Nat → Nat}
    (h : ∀ node < c.nodes, hops' (c.opposite node) = hops node) :
    ((set.mirror c).toList.map hops').foldl max 0 = (set.toList.map hops).foldl max 0 := by
  refine eq_of_forall_ge_iff fun most => ?_
  rw [foldl_max_le_iff, foldl_max_le_iff, List.forall_mem_map, List.forall_mem_map]
  refine and_congr_right fun _ => ?_
  simp only [NodeSet.mem_toList]
  constructor
  · intro hall node hmem
    rw [← h node (hin node hmem)]
    apply hall
    rw [NodeSet.contains_mirror_opposite hcap (hin node hmem)]
    exact hmem
  · intro hall node hmem
    obtain ⟨hnode, hmem⟩ := (NodeSet.contains_mirror hcap).1 hmem
    rw [← Chain.opposite_opposite hnode, h _ (Chain.opposite_lt hnode)]
    exact hall _ hmem

/-- What one endpoint needs the other one needs in the mirror. -/
theorem stillNeeded_mirror (hm : m.WellFormed) (hfits : d.Fits m.chain.nodes m.horizon) :
    ∃ needed, m.stillNeeded d = .ok needed ∧
      m.mirror.stillNeeded (d.mirror m.chain) = .ok needed := by
  have hcap := hm.le_capacity
  have hm' := Model.wellFormed_mirror hm
  have hin : ∀ endpoint node,
      (m.chain.resultSet \ d.holdingNext endpoint).contains node = true → node < m.chain.nodes := by
    intro endpoint node hmem
    rw [NodeSet.contains_sdiff, Bool.and_eq_true, Chain.contains_resultSet hcap] at hmem
    exact Chain.lt_of_isInner hmem.1
  have hmissing : ∀ endpoint < m.chain.nodes,
      m.chain.resultSet \ (d.mirror m.chain).holdingNext endpoint =
        (m.chain.resultSet \ d.holdingNext (m.chain.opposite endpoint)).mirror m.chain := by
    intro endpoint hendpoint
    rw [holdingNext_mirror hcap hfits hendpoint, NodeSet.mirror_sdiff hcap,
      Chain.mirror_resultSet hcap]
  have hfirst := foldl_max_mirror hcap (hin m.chain.farEnd) fun node hnode =>
    hopsFromFirst_mirror hcap hfits hnode
  have hlast := foldl_max_mirror hcap (hin 0) fun node hnode =>
    hopsFromLast_mirror hcap hfits hnode
  have hback : (d.mirror m.chain).Fits m.mirror.chain.nodes m.mirror.horizon := hfits.mirror
  refine ⟨_, hfits.stillNeeded_eq_ok hm, (hback.stillNeeded_eq_ok hm').trans ?_⟩
  unfold hopsMissing
  rw [Model.chain_mirror, hmissing 0 hm.first_lt, hmissing _ hm.farEnd_lt, m.chain.opposite_farEnd,
    Chain.opposite_zero]
  exact congrArg Except.ok ((congrArg₂ (· + ·) hfirst hlast).trans (Nat.add_comm _ _))

end Draft

/-! ## The program as a whole -/

/-- A model and its mirror image have the same obstacle, or both have none. -/
theorem Model.obstacle_mirror {m : Model} (hm : m.WellFormed) (hs : m.Storable) :
    ∃ obstacle, m.obstacle = .ok obstacle ∧ m.mirror.obstacle = .ok obstacle := by
  have hblank := Draft.blankDraft_eq hs
  have hblank' := Draft.blankDraft_eq (storable_mirror hs)
  rw [← Draft.mirror_start hm hs.horizon_lt] at hblank'
  obtain ⟨can, hcan, hcan'⟩ :=
    Draft.canFinish_mirror hm (Draft.consistent_start hs.horizon_lt).fits
  unfold obstacle
  rw [chain_mirror, horizon_mirror]
  by_cases hshort : m.horizon < m.chain.crossing
  · rw [if_pos hshort, if_pos hshort]
    exact ⟨_, rfl, rfl⟩
  · rw [if_neg hshort, if_neg hshort, hblank, hblank', ok_bind, ok_bind, hcan, hcan']
    cases can with
    | true => exact ⟨none, rfl, rfl⟩
    | false => exact ⟨some .rankUnreachable, rfl, rfl⟩

/-- A built model and the one of the reversed list of ranks, whatever the bank.

A schedule whose ids are nodes of the chain is valid exactly if its mirror image is valid
for the mirrored model.  Either model is feasible if the other one is, with the same
obstacle if not.  The mirror image of a draft that arises in the course of the model arises
in that of the mirrored one, and the estimates for it are those for the draft in reverse;
both can be complete at the same time, by the horizon or not, and need the same number of
messages.  This holds of any draft whose tables have the size that the model asks for and
whose times are times of the model. -/
theorem mirror_symmetric {p : Problem} {bank : RuleBank} {m : Model} (h : p.model bank = .ok m) :
    p.mirror.model bank = .ok m.mirror ∧
      (∀ s : Schedule, s.Within m.chain → ∃ valid,
        m.isValid s = .ok valid ∧ m.mirror.isValid (s.mirror m.chain) = .ok valid) ∧
      (∃ obstacle, m.obstacle = .ok obstacle ∧ m.mirror.obstacle = .ok obstacle) ∧
      (∀ d : Draft, d.Arises m →
        d.Fits m.nodes m.horizon ∧ (d.mirror m.chain).Arises m.mirror) ∧
      ∀ d : Draft, d.Fits m.nodes m.horizon → ∃ estimates completion can needed,
        m.soonestExecutions d = .ok estimates ∧
        m.mirror.soonestExecutions (d.mirror m.chain) = .ok estimates.reverse ∧
        m.soonestCompletion d = .ok completion ∧
        m.mirror.soonestCompletion (d.mirror m.chain) = .ok completion ∧
        m.canFinish d = .ok can ∧ m.mirror.canFinish (d.mirror m.chain) = .ok can ∧
        m.stillNeeded d = .ok needed ∧ m.mirror.stillNeeded (d.mirror m.chain) = .ok needed := by
  have hm := wellFormed_of_model h
  have hs := storable_of_model h
  refine ⟨Problem.model_mirror h, fun s hs' => Model.isValid_mirror hm hs hs',
    Model.obstacle_mirror hm hs, fun d hd => ⟨hd.fits hm hs, hd.mirror hm hs⟩, fun d hfits => ?_⟩
  obtain ⟨estimates, hestimates, _, _, hestimates', _⟩ := Draft.soonestExecutions_mirror hm hfits
  obtain ⟨completion, hcompletion, hcompletion'⟩ := Draft.soonestCompletion_mirror hm hfits
  obtain ⟨can, hcan, hcan'⟩ := Draft.canFinish_mirror hm hfits
  obtain ⟨needed, hneeded, hneeded'⟩ := Draft.stillNeeded_mirror hm hfits
  exact ⟨estimates, completion, can, needed, hestimates, hestimates', hcompletion, hcompletion',
    hcan, hcan', hneeded, hneeded'⟩

/-- A chain of four nodes on which the result of node 1 is needed by node 2. -/
def lopsided : Problem := { nodes := 4, horizon := 3, ranks := [1, 0, 1, 1] }

/-- The model of `lopsided` under the standard bank. -/
def lopsidedModel : Model where
  chain := { nodes := 4 }
  ranks := .assign { nodes := 4 } [1, 0, 1, 1]
  horizon := 3
  bank := .standard

/-- A schedule with four messages. -/
def lopsidedSchedule : Schedule where
  executions := [⟨1, 0⟩, ⟨2, 1⟩]
  messages := [
    ⟨1, 2, 0, .ofList [1]⟩, ⟨2, 1, 1, .ofList [1, 2]⟩, ⟨2, 3, 1, .ofList [1, 2]⟩,
    ⟨1, 0, 2, .ofList [1, 2]⟩]

/-- Its mirror image is valid as well, and after its first message node 1 waits for
node 2 there. -/
theorem lopsided_mirrored : lopsided.model .standard = .ok lopsidedModel ∧
    lopsidedModel.mirror.isValid (lopsidedSchedule.mirror lopsidedModel.chain) = .ok true ∧
    ∃ d, d.Arises lopsidedModel ∧ (d.mirror lopsidedModel.chain).Arises lopsidedModel.mirror ∧
      lopsidedModel.soonestExecutions d = .ok [none, some 0, some 1, none] ∧
      lopsidedModel.mirror.soonestExecutions (d.mirror lopsidedModel.chain) =
        .ok [none, some 1, some 0, none] := by
  have hbuilt : lopsided.model .standard = .ok lopsidedModel := rfl
  obtain ⟨_, hvalid, _, harises, hestimates⟩ := mirror_symmetric hbuilt
  have hpayload : ∀ a ∈ lopsidedSchedule.messages,
      a.payload.isSubset (.ofList (List.range 4)) = true := by decide
  have hwithin : lopsidedSchedule.Within lopsidedModel.chain :=
    { node_lt := by decide
      sender_lt := by decide
      receiver_lt := by decide
      payload_lt := by
        intro a ha result hmem
        have hthere := NodeSet.isSubset_iff.1 (hpayload a ha) result hmem
        exact List.mem_range.1 (NodeSet.contains_ofList.1 hthere).1 }
  have hpasses : lopsidedModel.isValid lopsidedSchedule = .ok true := rfl
  obtain ⟨valid, hok, hok'⟩ := hvalid lopsidedSchedule hwithin
  rw [hpasses] at hok
  cases hok
  have hexec : Draft.Operates lopsidedModel (.start lopsidedModel) _ := .executes rfl
  have hops := (Relation.ReflTransGen.single hexec).tail
    (@Draft.Operates.sends _ _ _ 1 2 rfl rfl)
  have hdraft := harises _ ⟨_, _, rfl, hops, .inl rfl⟩
  obtain ⟨estimates, _, _, _, hfound, hfound', _⟩ := hestimates _ hdraft.1
  have hknown : estimates = [none, some 0, some 1, none] := Except.ok.inj (hfound.symm.trans rfl)
  subst hknown
  exact ⟨hbuilt, hok', _, ⟨_, _, rfl, hops, .inl rfl⟩, hdraft.2, hfound, hfound'⟩

end ChainPropagation
