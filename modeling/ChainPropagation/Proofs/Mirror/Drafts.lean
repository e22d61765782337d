import ChainPropagation.Proofs.Earliest
import ChainPropagation.Proofs.Mirror.Rules
import ChainPropagation.Proofs.Operations
import ChainPropagation.Proofs.Possession

/-!
# Mirrored drafts

The mirror image of a draft has in each of its tables, for each node, what the draft has
for the opposite one, with sets mirrored; its messages are the mirrored ones, in the order
in which they were sent.

Nodes execute in the order of their ids, so that the executions of a step come in another
order in the mirror.  A draft is determined by what its tables say of each node
(`Fits.eq_of_views`), and that does not depend on the order.  So every operation on a
draft has its mirror image: what operations lead to in a model, the mirrored operations
lead to in the mirror image of the model (`Operates.mirror`).

## Main results

* `Fits.eq_of_views` — a draft is what its tables say.
* `Arises.mirror` — the mirror image of a draft that operations lead to is one for the
  mirror image of the model.
-/

namespace ChainPropagation

/-! ## Tables -/

namespace Possession

/-- Each row from the other end. -/
def mirror (c : Chain) (p : Possession) : Possession where
  nodes := p.nodes
  horizon := p.horizon
  cells := Array.ofFn fun at_ : Fin (p.nodes * (p.horizon + 1)) =>
    (p.cell (at_ / p.nodes) (c.opposite (at_ % p.nodes))).mirror c

theorem cell_mirror {c : Chain} {p : Possession} {time node : Nat} (hnodes : p.nodes = c.nodes)
    (htime : time ≤ p.horizon) (hnode : node < c.nodes) :
    (p.mirror c).cell time node = (p.cell time (c.opposite node)).mirror c := by
  rw [← hnodes] at hnode
  have hpos : 0 < p.nodes := Nat.zero_lt_of_lt hnode
  have hplace : time * p.nodes + node < p.nodes * (p.horizon + 1) := by
    have hrows := Nat.mul_le_mul_right p.nodes (Nat.succ_le_succ htime)
    rw [Nat.succ_mul, Nat.mul_comm p.horizon.succ] at hrows
    exact Nat.lt_of_lt_of_le (Nat.add_lt_add_left hnode _) hrows
  have hrow : (time * p.nodes + node) / p.nodes = time := by
    rw [Nat.mul_comm, Nat.mul_add_div hpos, Nat.div_eq_of_lt hnode, Nat.add_zero]
  have hcolumn : (time * p.nodes + node) % p.nodes = node := by
    rw [Nat.mul_comm, Nat.mul_add_mod, Nat.mod_eq_of_lt hnode]
  show (Array.ofFn _).getD (time * p.nodes + node) ∅ = _
  rw [Array.getD_eq_getD_getElem?, Array.getElem?_ofFn, dif_pos hplace, Option.getD_some]
  simp only [hrow, hcolumn]

end Possession

namespace Draft

variable {m : Model} {c : Chain} {d e : Draft} {nodes horizon node : Nat}

/-- The draft with its nodes in reverse. -/
def mirror (c : Chain) (d : Draft) : Draft where
  time := d.time
  horizon := d.horizon
  held := (d.held.map (.mirror c)).reverse
  inbox := (d.inbox.map (.mirror c)).reverse
  executed := d.executed.reverse
  messages := d.messages.map (.mirror c)
  possession := d.possession.mirror c

theorem Fits.covers (h : d.Fits m.nodes m.horizon) : m.Covers d.possession where
  nodes_eq := h.nodes_possession
  horizon_eq := h.horizon_possession
  size_le := Nat.le_of_eq h.size_cells.symm

/-- A draft is what its tables say. -/
theorem Fits.eq_of_views (hd : d.Fits nodes horizon) (he : e.Fits nodes horizon)
    (htime : d.time = e.time) (hhorizon : d.horizon = e.horizon)
    (hmessages : d.messages = e.messages)
    (hholding : ∀ node < nodes, d.holding node = e.holding node)
    (harriving : ∀ node < nodes, d.arriving node = e.arriving node)
    (hexecuted : ∀ node < nodes, d.executedAt node = e.executedAt node)
    (hcells : ∀ time ≤ horizon, ∀ node < nodes,
      d.possession.cell time node = e.possession.cell time node) : d = e := by
  have hheld : d.held = e.held := by
    refine eq_of_getD ∅ (hd.size_held.trans he.size_held.symm) fun node hnode => ?_
    exact hholding node (hd.size_held ▸ hnode)
  have hinbox : d.inbox = e.inbox := by
    refine eq_of_getD ∅ (hd.size_inbox.trans he.size_inbox.symm) fun node hnode => ?_
    exact harriving node (hd.size_inbox ▸ hnode)
  have hdone : d.executed = e.executed := by
    refine eq_of_getD none (hd.size_executed.trans he.size_executed.symm) fun node hnode => ?_
    exact hexecuted node (hd.size_executed ▸ hnode)
  have hpossession : d.possession = e.possession := by
    refine Possession.eq_of_cells (hd.nodes_possession.trans he.nodes_possession.symm)
      (hd.horizon_possession.trans he.horizon_possession.symm) ?_ ?_ ?_
    · rw [hd.size_cells, hd.nodes_possession, hd.horizon_possession]
    · rw [he.size_cells, he.nodes_possession, he.horizon_possession]
    · rw [hd.nodes_possession, hd.horizon_possession]
      exact hcells
  cases d
  cases e
  simp only [mk.injEq]
  exact ⟨htime, hhorizon, hheld, hinbox, hdone, hmessages, hpossession⟩

/-! ## What the tables say -/

theorem getD_reverse {α : Type} (entries : Array α) (other : α) {index : Nat}
    (h : index < entries.size) :
    entries.reverse.getD index other = entries.getD (entries.size - 1 - index) other := by
  rw [Array.getD_eq_getD_getElem?, Array.getElem?_reverse h, ← Array.getD_eq_getD_getElem?]

theorem getD_map_mirror (hcap : c.nodes ≤ NodeSet.capacity) (row : Array NodeSet) (index : Nat) :
    (row.map (.mirror c)).getD index ∅ = (row.getD index ∅).mirror c := by
  rw [Array.getD_eq_getD_getElem?, Array.getElem?_map, Array.getD_eq_getD_getElem?]
  cases row[index]? with
  | none => exact (NodeSet.mirror_empty hcap).symm
  | some held => rfl

section

variable (hcap : c.nodes ≤ NodeSet.capacity) (h : d.Fits c.nodes horizon)

include hcap h

theorem holding_mirror (hnode : node < c.nodes) :
    (d.mirror c).holding node = (d.holding (c.opposite node)).mirror c := by
  show ((d.held.map (NodeSet.mirror c)).reverse).getD node ∅ = _
  have hlt : node < (d.held.map (NodeSet.mirror c)).size := by
    rw [Array.size_map, h.size_held]
    exact hnode
  rw [getD_reverse _ _ hlt, getD_map_mirror hcap, Array.size_map, h.size_held]
  rfl

theorem arriving_mirror (hnode : node < c.nodes) :
    (d.mirror c).arriving node = (d.arriving (c.opposite node)).mirror c := by
  show ((d.inbox.map (NodeSet.mirror c)).reverse).getD node ∅ = _
  have hlt : node < (d.inbox.map (NodeSet.mirror c)).size := by
    rw [Array.size_map, h.size_inbox]
    exact hnode
  rw [getD_reverse _ _ hlt, getD_map_mirror hcap, Array.size_map, h.size_inbox]
  rfl

theorem holdingNext_mirror (hnode : node < c.nodes) :
    (d.mirror c).holdingNext node = (d.holdingNext (c.opposite node)).mirror c := by
  rw [holdingNext, holdingNext, holding_mirror hcap h hnode, arriving_mirror hcap h hnode,
    NodeSet.mirror_union hcap]

omit hcap

theorem executedAt_mirror (hnode : node < c.nodes) :
    (d.mirror c).executedAt node = d.executedAt (c.opposite node) := by
  have hlt : node < d.executed.size := by
    rw [h.size_executed]
    exact hnode
  show d.executed.reverse.getD node none = _
  rw [getD_reverse _ _ hlt, h.size_executed]
  rfl

theorem cell_mirror {time : Nat} (htime : time ≤ horizon) (hnode : node < c.nodes) :
    (d.mirror c).possession.cell time node =
      (d.possession.cell time (c.opposite node)).mirror c := by
  rw [← h.horizon_possession] at htime
  exact Possession.cell_mirror h.nodes_possession htime hnode

theorem Fits.mirror : (d.mirror c).Fits c.nodes horizon where
  horizon_lt := h.horizon_lt
  time_le := h.time_le
  size_held := by
    show ((d.held.map (NodeSet.mirror c)).reverse).size = _
    rw [Array.size_reverse, Array.size_map, h.size_held]
  size_inbox := by
    show ((d.inbox.map (NodeSet.mirror c)).reverse).size = _
    rw [Array.size_reverse, Array.size_map, h.size_inbox]
  size_executed := by
    show d.executed.reverse.size = _
    rw [Array.size_reverse, h.size_executed]
  nodes_possession := h.nodes_possession
  horizon_possession := h.horizon_possession
  size_cells := by
    show (Array.ofFn _).size = _
    rw [Array.size_ofFn, h.nodes_possession, h.horizon_possession]
  executed_le node time hexec := by
    have hsize : (d.mirror c).executed.size = c.nodes :=
      (Array.size_reverse).trans h.size_executed
    rw [executedAt_mirror h (hsize ▸ lt_of_executedAt hexec)] at hexec
    exact h.executed_le _ time hexec

end

/-! ## Operations in the mirror -/

theorem cell_start (m : Model) (time node : Nat) : (start m).possession.cell time node = ∅ := by
  rw [Possession.cell, start, Array.getD_eq_getD_getElem?, Array.getElem?_replicate]
  split <;> rfl

theorem mirror_start (hm : m.WellFormed) (hlt : m.horizon < storageLimit) :
    (start m).mirror m.chain = start m.mirror := by
  have hcap := hm.le_capacity
  have hfits := (consistent_start hlt).fits
  have hback : (start m.mirror).Fits m.chain.nodes m.horizon :=
    (consistent_start (m := m.mirror) hlt).fits
  refine hfits.mirror.eq_of_views hback rfl rfl Array.map_empty ?_ ?_ ?_ ?_
  · intro node hnode
    rw [holding_mirror hcap hfits hnode, holding_start, holding_start, NodeSet.mirror_empty hcap]
  · intro node hnode
    rw [arriving_mirror hcap hfits hnode, arriving_start, arriving_start, NodeSet.mirror_empty hcap]
  · intro node hnode
    rw [executedAt_mirror hfits hnode, executedAt_start, executedAt_start]
  · intro time htime node hnode
    rw [cell_mirror hfits htime hnode, cell_start, cell_start, NodeSet.mirror_empty hcap]

theorem ready_mirror (hm : m.WellFormed) (hfits : d.Fits m.chain.nodes horizon)
    (hnode : node < m.chain.nodes) :
    (d.mirror m.chain).Ready m.mirror node ↔ d.Ready m (m.chain.opposite node) := by
  have hcap := hm.le_capacity
  constructor
  · intro hready
    exact
      { inner := (Chain.isInner_opposite hnode).trans hready.inner
        fresh := (executedAt_mirror hfits hnode).symm.trans hready.fresh
        at_once := fun hzero => hready.at_once ((Model.rank_mirror hm hnode).trans hzero)
        holds := by
          intro other hwaits
          have hother := Chain.lt_of_isInner hwaits.1
          rw [← Chain.opposite_opposite hother] at hwaits
          have hheld := hready.holds _
            ((Model.waits_mirror hm hnode).2 ⟨Chain.opposite_lt hother, hwaits⟩)
          rwa [holding_mirror hcap hfits hnode, NodeSet.contains_mirror_opposite hcap hother]
            at hheld }
  · intro hready
    exact
      { inner := (Chain.isInner_opposite hnode).symm.trans hready.inner
        fresh := (executedAt_mirror hfits hnode).trans hready.fresh
        at_once := fun hzero => hready.at_once ((Model.rank_mirror hm hnode).symm.trans hzero)
        holds := by
          intro other hwaits
          obtain ⟨hother, hwaits⟩ := (Model.waits_mirror hm hnode).1 hwaits
          rw [holding_mirror hcap hfits hnode, NodeSet.contains_mirror hcap]
          exact ⟨hother, hready.holds _ hwaits⟩ }

/-- The executions of a step.  Their order makes no difference to the tables. -/
theorem mirror_opened (hm : m.WellFormed) (hd : d.Consistent m)
    (hback : (d.mirror m.chain).Consistent m.mirror)
    (hexec : m.executeReady d = .ok e) :
    m.mirror.executeReady (d.mirror m.chain) = .ok (e.mirror m.chain) := by
  have hcap := hm.le_capacity
  have hfits := hd.fits
  have hopens := hd.opens_of_executeReady hm hexec
  have he := hopens.consistent.fits
  obtain ⟨f, hexec', hopens'⟩ := hback.executeReady_eq (Model.wellFormed_mirror hm)
  have hf : f.Fits m.chain.nodes m.horizon := hopens'.consistent.fits
  have hholding : ∀ node < m.chain.nodes, f.holding node = (e.mirror m.chain).holding node := by
    intro node hnode
    rw [holding_mirror hcap he hnode, NodeSet.eq_iff_contains]
    intro result
    rw [hopens'.contains_holding, holding_mirror hcap hfits hnode, ready_mirror hm hfits hnode,
      NodeSet.contains_mirror hcap, NodeSet.contains_mirror hcap, hopens.contains_holding,
      and_or_left]
    apply or_congr_right
    constructor
    · rintro ⟨rfl, hready⟩
      exact ⟨hnode, rfl, hready⟩
    · rintro ⟨hresult, hat, hready⟩
      exact ⟨(Chain.opposite_inj hnode hresult).1 hat, hready⟩
  rw [hexec']
  refine congrArg Except.ok (hf.eq_of_views he.mirror ?_ ?_ ?_ hholding ?_ ?_ ?_)
  · exact hopens'.time_eq.trans hopens.time_eq.symm
  · exact hopens'.consistent.horizon_eq.trans hopens.consistent.horizon_eq.symm
  · rw [hopens'.messages_eq]
    exact congrArg (Array.map (Message.mirror m.chain)) hopens.messages_eq.symm
  · intro node hnode
    rw [hopens'.arriving_eq, arriving_mirror hcap hfits hnode, arriving_mirror hcap he hnode,
      hopens.arriving_eq]
  · intro node hnode
    apply Option.ext
    intro time
    rw [hopens'.executedAt_iff, executedAt_mirror hfits hnode, ready_mirror hm hfits hnode,
      executedAt_mirror he hnode, hopens.executedAt_iff]
    rfl
  · intro time htime node hnode
    have hcovers := Fits.covers (m := m.mirror) hfits.mirror
    have hthere := hopens.consistent.cell_opened hfits.covers hexec htime (Chain.opposite_lt hnode)
    rw [hopens'.consistent.cell_opened hcovers hexec' htime hnode, cell_mirror he htime hnode,
      hthere, hholding node hnode, holding_mirror hcap he hnode, cell_mirror hfits htime hnode]
    exact (apply_ite (NodeSet.mirror m.chain) _ _ _).symm

/-- A message between nodes of the chain. -/
theorem mirror_sent {sender receiver : Nat} (hcap : c.nodes ≤ NodeSet.capacity)
    (hfits : d.Fits c.nodes horizon) (hsender : sender < c.nodes) (hreceiver : receiver < c.nodes) :
    (d.sent sender receiver).mirror c =
      (d.mirror c).sent (c.opposite sender) (c.opposite receiver) := by
  have hsent := hfits.sent sender receiver
  have hback := hfits.mirror.sent (c.opposite sender) (c.opposite receiver)
  have hpayload : (d.mirror c).holding (c.opposite sender) = (d.holding sender).mirror c := by
    rw [holding_mirror hcap hfits (Chain.opposite_lt hsender), Chain.opposite_opposite hsender]
  refine hsent.mirror.eq_of_views hback rfl rfl ?_ ?_ ?_ ?_ ?_
  · show (d.messages.push _).map (Message.mirror c) = (d.messages.map (Message.mirror c)).push _
    rw [Array.map_push, hpayload]
    rfl
  · intro node hnode
    rw [holding_mirror hcap hsent hnode, holding_sent, holding_sent,
      holding_mirror hcap hfits hnode]
  · intro node hnode
    have hin : receiver < d.inbox.size := by
      rw [hfits.size_inbox]
      exact hreceiver
    have hin' : c.opposite receiver < (d.mirror c).inbox.size := by
      rw [hfits.mirror.size_inbox]
      exact Chain.opposite_lt hreceiver
    rw [arriving_mirror hcap hsent hnode, arriving_sent d _ hin, arriving_sent _ node hin',
      hpayload, arriving_mirror hcap hfits hnode, ← NodeSet.mirror_union hcap,
      apply_ite (NodeSet.mirror c)]
    simp only [eq_comm (b := node), Chain.opposite_eq_iff hnode hreceiver,
      eq_comm (b := c.opposite node)]
  · intro node hnode
    rw [executedAt_mirror hsent hnode]
    exact (executedAt_mirror hfits hnode).symm
  · intro time htime node hnode
    rw [cell_mirror hsent htime hnode]
    exact (cell_mirror hfits htime hnode).symm

/-- What was on its way has come. -/
theorem mirror_delivered (hcap : c.nodes ≤ NodeSet.capacity) (hfits : d.Fits c.nodes horizon)
    (hearly : d.time < horizon) : d.delivered.mirror c = (d.mirror c).delivered := by
  have hlater := hfits.delivered hearly
  refine hlater.mirror.eq_of_views (hfits.mirror.delivered hearly) rfl rfl rfl ?_ ?_ ?_ ?_
  · intro node hnode
    rw [holding_mirror hcap hlater hnode,
      holding_delivered _ _ (hfits.size_held.trans hfits.size_inbox.symm),
      holding_delivered _ _ (hfits.mirror.size_held.trans hfits.mirror.size_inbox.symm),
      holdingNext_mirror hcap hfits hnode]
  · intro node hnode
    rw [arriving_mirror hcap hlater hnode, arriving_delivered, arriving_delivered,
      NodeSet.mirror_empty hcap]
  · intro node hnode
    rw [executedAt_mirror hlater hnode]
    exact (executedAt_mirror hfits hnode).symm
  · intro time htime node hnode
    rw [cell_mirror hlater htime hnode]
    exact (cell_mirror hfits htime hnode).symm

/-- The rows that are left say what is held. -/
theorem mirror_settled (hm : m.WellFormed) (hd : d.Consistent m) :
    d.settled.mirror m.chain = (d.mirror m.chain).settled := by
  have hcap := hm.le_capacity
  have hfits := hd.fits
  have hend := hfits.settled hd.horizon_eq
  refine hend.mirror.eq_of_views (hfits.mirror.settled hd.horizon_eq) rfl rfl rfl ?_ ?_ ?_ ?_
  · intro node hnode
    rw [holding_mirror hcap hend hnode]
    exact (holding_mirror hcap hfits hnode).symm
  · intro node hnode
    rw [arriving_mirror hcap hend hnode]
    exact (arriving_mirror hcap hfits hnode).symm
  · intro node hnode
    rw [executedAt_mirror hend hnode]
    exact (executedAt_mirror hfits hnode).symm
  · intro time htime node hnode
    have hcovers := Fits.covers (m := m.mirror) hfits.mirror
    rw [cell_mirror hend htime hnode, cell_settled hfits.covers hd.size_held hd.horizon_eq
        hd.time_le htime (Chain.opposite_lt hnode),
      cell_settled (m := m.mirror) hcovers hfits.mirror.size_held hd.horizon_eq hd.time_le htime
        hnode,
      holding_mirror hcap hfits hnode, cell_mirror hfits htime hnode]
    exact apply_ite (NodeSet.mirror m.chain) _ _ _

/-- Nothing is on its way in the mirror if nothing is. -/
theorem Quiet.mirror (hquiet : d.Quiet) (hcap : c.nodes ≤ NodeSet.capacity)
    (hfits : d.Fits c.nodes horizon) : (d.mirror c).Quiet := by
  intro node
  by_cases hnode : node < c.nodes
  · rw [arriving_mirror hcap hfits hnode, hquiet, NodeSet.mirror_empty hcap]
  · rw [arriving, Array.getD_eq_getD_getElem?, Array.getElem?_eq_none, Option.getD_none]
    rw [hfits.mirror.size_inbox]
    exact Nat.le_of_not_lt hnode

theorem mirror_settle (hm : m.WellFormed) (hd : d.Consistent m) (hsettle : d.settle = .ok e) :
    (d.mirror m.chain).settle = .ok (e.mirror m.chain) := by
  have hback := (quiet_of_settle hsettle).mirror hm.le_capacity hd.fits
  rw [eq_settled_of_settle hsettle, mirror_settled hm hd]
  exact hd.fits.mirror.settle_eq hd.horizon_eq hback

/-- Each operation has its mirror image. -/
theorem Operates.mirror (hop : Operates m d e) (hm : m.WellFormed) (hd : d.Consistent m)
    (hback : (d.mirror m.chain).Consistent m.mirror) :
    Operates m.mirror (d.mirror m.chain) (e.mirror m.chain) := by
  have hcap := hm.le_capacity
  have hfits := hd.fits
  cases hop with
  | executes done => exact .executes (mirror_opened hm hd hback done)
  | @sends sender receiver allowed done =>
      obtain ⟨hbeside, result, hheld⟩ := hd.canSend_iff.1 allowed
      obtain ⟨hsender, hreceiver, _⟩ := Chain.sideBySide_iff.1 hbeside
      obtain ⟨time, hexec⟩ := hd.executed_of_contains hheld
      have hresult := Chain.lt_of_isInner (hd.executes result time hexec).1
      have hthere : m.chain.sideBySide (m.chain.opposite sender)
          (m.chain.opposite receiver) = true :=
        (Chain.sideBySide_opposite hsender hreceiver).trans hbeside
      have hsome : ((d.mirror m.chain).holding (m.chain.opposite sender)).contains
          (m.chain.opposite result) = true := by
        rw [holding_mirror hcap hfits (Chain.opposite_lt hsender),
          NodeSet.contains_mirror_opposite hcap hresult, Chain.opposite_opposite hsender]
        exact hheld
      rw [eq_sent_of_send done, mirror_sent hcap hfits hsender hreceiver]
      exact .sends (hback.canSend_iff.2 ⟨hthere, _, hsome⟩) (hback.send_eq hthere)
  | passes done =>
      obtain ⟨hlt, rfl⟩ := eq_delivered_of_passTime done
      have hearly : d.time < m.horizon := hd.horizon_eq ▸ hlt
      rw [mirror_delivered hcap hfits hearly]
      exact .passes (hback.passTime_eq hearly)

/-- What operations lead to has a mirror image that the mirrored operations lead to.
The induction is on the operations; the draft before each of them agrees with its
events, and so does its mirror image. -/
theorem operations_mirror (hm : m.WellFormed) (hlt : m.horizon < storageLimit)
    (hops : Relation.ReflTransGen (Operates m) (start m) d) :
    Relation.ReflTransGen (Operates m.mirror) (start m.mirror) (d.mirror m.chain) := by
  induction hops with
  | refl =>
      rw [mirror_start hm hlt]
  | tail hops hop ih =>
      have hd := (operations_at_least hops hm (consistent_start hlt)).1
      have hback := (operations_at_least ih (Model.wellFormed_mirror hm)
        (consistent_start (m := m.mirror) hlt)).1
      exact ih.tail (hop.mirror hm hd hback)

/-- What a draft can be in the course of a model: one that operations lead to from the
blank draft, or the settled one for it. -/
def Arises (m : Model) (d : Draft) : Prop :=
  ∃ blank before, m.blankDraft = .ok blank ∧
    Relation.ReflTransGen (Operates m) blank before ∧ (d = before ∨ before.settle = .ok d)

theorem Arises.fits (h : d.Arises m) (hm : m.WellFormed) (hs : m.Storable) :
    d.Fits m.nodes m.horizon := by
  obtain ⟨blank, before, hblank, hops, hend⟩ := h
  rw [blankDraft_eq hs] at hblank
  cases hblank
  have hd := (operations_at_least hops hm (consistent_start hs.horizon_lt)).1
  rcases hend with rfl | hsettle
  · exact hd.fits
  · rw [eq_settled_of_settle hsettle]
    exact hd.fits.settled hd.horizon_eq

theorem Arises.mirror (h : d.Arises m) (hm : m.WellFormed) (hs : m.Storable) :
    (d.mirror m.chain).Arises m.mirror := by
  obtain ⟨blank, before, hblank, hops, hend⟩ := h
  rw [blankDraft_eq hs] at hblank
  cases hblank
  refine ⟨_, before.mirror m.chain, blankDraft_eq (Model.storable_mirror hs),
    operations_mirror hm hs.horizon_lt hops, ?_⟩
  rcases hend with rfl | hsettle
  · exact .inl rfl
  · have hd := (operations_at_least hops hm (consistent_start hs.horizon_lt)).1
    exact .inr (mirror_settle hm hd hsettle)

end Draft

end ChainPropagation
