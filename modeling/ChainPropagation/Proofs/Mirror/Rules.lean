import Mathlib.Data.List.Find
import ChainPropagation.Proofs.Mirror
import ChainPropagation.Proofs.Verdict

/-!
# Mirrored schedules

A schedule is mirrored by taking every id in it to the opposite node, those in payloads
included.  The times stay, and so does the order in which the events are listed.

If all ids are those of the chain, the replay of the mirrored schedule is the mirror image
of the replay, cell by cell (`contains_cell_mirror`).  What a rule asks of a schedule it
asks of the mirrored one at the opposite nodes, so that a schedule which satisfies it does
so still when it is mirrored (`Satisfies.mirror`).  To mirror twice changes nothing, and
so this is an equivalence.

## Main result

* `isValid_mirror` — a schedule is valid for a model exactly if its mirror image is valid
  for the mirror image of the model.
-/

namespace ChainPropagation

/-! ## Schedules -/

/-- The opposite node executes. -/
def Execution.mirror (c : Chain) (e : Execution) : Execution := { e with node := c.opposite e.node }

/-- The opposite nodes exchange the opposite results. -/
def Message.mirror (c : Chain) (a : Message) : Message where
  sender := c.opposite a.sender
  receiver := c.opposite a.receiver
  time := a.time
  payload := a.payload.mirror c

namespace Schedule

/-- The events with their ids taken to the opposite nodes. -/
def mirror (c : Chain) (s : Schedule) : Schedule where
  executions := s.executions.map (.mirror c)
  messages := s.messages.map (.mirror c)

/-- All ids of a schedule are nodes of a chain. -/
structure Within (c : Chain) (s : Schedule) : Prop where
  node_lt : ∀ e ∈ s.executions, e.node < c.nodes
  sender_lt : ∀ a ∈ s.messages, a.sender < c.nodes
  receiver_lt : ∀ a ∈ s.messages, a.receiver < c.nodes
  payload_lt : ∀ a ∈ s.messages, ∀ result, a.payload.contains result = true → result < c.nodes

variable {c : Chain} {s : Schedule} {node result : Nat}

theorem forall_executions_mirror {P : Execution → Prop} :
    (∀ e ∈ (s.mirror c).executions, P e) ↔ ∀ e ∈ s.executions, P (e.mirror c) :=
  List.forall_mem_map

theorem forall_messages_mirror {P : Message → Prop} :
    (∀ a ∈ (s.mirror c).messages, P a) ↔ ∀ a ∈ s.messages, P (a.mirror c) :=
  List.forall_mem_map

theorem Within.mirror (h : s.Within c) (hcap : c.nodes ≤ NodeSet.capacity) :
    (s.mirror c).Within c where
  node_lt := forall_executions_mirror.2 fun e he => Chain.opposite_lt (h.node_lt e he)
  sender_lt := forall_messages_mirror.2 fun a ha => Chain.opposite_lt (h.sender_lt a ha)
  receiver_lt := forall_messages_mirror.2 fun a ha => Chain.opposite_lt (h.receiver_lt a ha)
  payload_lt := forall_messages_mirror.2 fun _ _ _ hcarries =>
    ((NodeSet.contains_mirror hcap).1 hcarries).1

theorem mirror_mirror (h : s.Within c) (hcap : c.nodes ≤ NodeSet.capacity) :
    (s.mirror c).mirror c = s := by
  have hexecutions : (s.executions.map (.mirror c)).map (.mirror c) = s.executions := by
    rw [List.map_map]
    refine (List.map_congr_left fun e he => ?_).trans (List.map_id _)
    exact congrArg (fun node => (⟨node, e.time⟩ : Execution))
      (Chain.opposite_opposite (h.node_lt e he))
  have hmessages : (s.messages.map (.mirror c)).map (.mirror c) = s.messages := by
    rw [List.map_map]
    refine (List.map_congr_left fun a ha => ?_).trans (List.map_id _)
    show (⟨c.opposite (c.opposite a.sender), c.opposite (c.opposite a.receiver), a.time,
      (a.payload.mirror c).mirror c⟩ : Message) = a
    rw [Chain.opposite_opposite (h.sender_lt a ha), Chain.opposite_opposite (h.receiver_lt a ha),
      NodeSet.mirror_mirror hcap (h.payload_lt a ha)]
  exact congrArg₂ Schedule.mk hexecutions hmessages

/-! ## Events at a node -/

theorem timeOf_mirror (h : s.Within c) (hnode : node < c.nodes) :
    (s.mirror c).timeOf node = s.timeOf (c.opposite node) := by
  have hfind : s.executions.find? (fun e => c.opposite e.node == node) =
      s.executions.find? (·.node == c.opposite node) := by
    refine List.find?_congr fun e he => ?_
    rw [Bool.eq_iff_iff, beq_iff_eq, beq_iff_eq]
    exact Chain.opposite_eq_iff (h.node_lt e he) hnode
  show ((s.executions.map (.mirror c)).find? (·.node == node)).map Execution.time = _
  rw [List.find?_map, Option.map_map]
  exact congrArg (Option.map Execution.time) hfind

theorem countP_mirror (h : s.Within c) (hnode : node < c.nodes) :
    (s.mirror c).executions.countP (·.node == node) =
      s.executions.countP (·.node == c.opposite node) := by
  show (s.executions.map (Execution.mirror c)).countP (·.node == node) = _
  rw [List.countP_map]
  refine List.countP_congr fun e he => ?_
  simp only [Function.comp_apply, beq_iff_eq]
  exact Chain.opposite_eq_iff (h.node_lt e he) hnode

theorem exists_execution_mirror (h : s.Within c) (hnode : node < c.nodes) (when : Nat → Prop) :
    (∃ e ∈ (s.mirror c).executions, e.node = node ∧ when e.time) ↔
      ∃ e ∈ s.executions, e.node = c.opposite node ∧ when e.time := by
  constructor
  · rintro ⟨_, hmem, hat, hwhen⟩
    obtain ⟨e, he, rfl⟩ := List.mem_map.1 hmem
    exact ⟨e, he, (Chain.opposite_eq_iff (h.node_lt e he) hnode).1 hat, hwhen⟩
  · rintro ⟨e, he, hat, hwhen⟩
    exact ⟨e.mirror c, List.mem_map_of_mem he,
      (Chain.opposite_eq_iff (h.node_lt e he) hnode).2 hat, hwhen⟩

theorem exists_message_mirror (h : s.Within c) (hcap : c.nodes ≤ NodeSet.capacity)
    (hnode : node < c.nodes) (result : Nat) (when : Nat → Prop) :
    (∃ a ∈ (s.mirror c).messages, a.receiver = node ∧ when a.time ∧
        a.payload.contains result = true) ↔
      result < c.nodes ∧ ∃ a ∈ s.messages, a.receiver = c.opposite node ∧ when a.time ∧
        a.payload.contains (c.opposite result) = true := by
  constructor
  · rintro ⟨_, hmem, hto, hwhen, hcarries⟩
    obtain ⟨a, ha, rfl⟩ := List.mem_map.1 hmem
    obtain ⟨hlt, hcarries⟩ := (NodeSet.contains_mirror hcap).1 hcarries
    exact ⟨hlt, a, ha, (Chain.opposite_eq_iff (h.receiver_lt a ha) hnode).1 hto, hwhen, hcarries⟩
  · rintro ⟨hlt, a, ha, hto, hwhen, hcarries⟩
    exact ⟨a.mirror c, List.mem_map_of_mem ha,
      (Chain.opposite_eq_iff (h.receiver_lt a ha) hnode).2 hto, hwhen,
      (NodeSet.contains_mirror hcap).2 ⟨hlt, hcarries⟩⟩

end Schedule

namespace Model

variable {m : Model} {s : Schedule} {p p' : Possession} {node result time : Nat}

/-- A cell of the replay of the mirrored schedule. -/
theorem contains_cell_mirror (hm : m.WellFormed) (hs : s.Within m.chain) (htime : time ≤ m.horizon)
    (hnode : node < m.chain.nodes) :
    (((s.mirror m.chain).table m.nodes m.horizon).cell time node).contains result = true ↔
      result < m.chain.nodes ∧ ((s.table m.nodes m.horizon).cell time
        (m.chain.opposite node)).contains (m.chain.opposite result) = true := by
  rw [contains_cell_iff hm _ htime hnode, contains_cell_iff hm _ htime (Chain.opposite_lt hnode),
    Schedule.exists_execution_mirror hs hnode (· ≤ time),
    Schedule.exists_message_mirror hs hm.le_capacity hnode result (· < time), and_or_left]
  apply or_congr_left
  constructor
  · rintro ⟨rfl, hexec⟩
    exact ⟨hnode, rfl, hexec⟩
  · rintro ⟨hlt, hown, hexec⟩
    exact ⟨(Chain.opposite_inj hnode hlt).1 hown, hexec⟩

/-! ## The rules -/

namespace Satisfies

theorem taskExecution_mirror (hs : s.Within m.chain) (h : m.Satisfies s p .taskExecution) :
    m.mirror.Satisfies (s.mirror m.chain) p' .taskExecution := by
  constructor
  · refine Schedule.forall_executions_mirror.2 fun e he => ?_
    obtain ⟨hinner, hle⟩ := h.1 e he
    exact ⟨(Chain.isInner_opposite (hs.node_lt e he)).trans hinner, hle⟩
  · intro node hinner
    have hnode : node < m.chain.nodes := Chain.lt_of_isInner hinner
    rw [Schedule.countP_mirror hs hnode]
    exact h.2 _ ((Chain.isInner_opposite hnode).trans hinner)

theorem rankEnablement_mirror (hm : m.WellFormed) (hs : s.Within m.chain)
    (h : m.Satisfies s (s.table m.nodes m.horizon) .rankEnablement) :
    m.mirror.Satisfies (s.mirror m.chain) ((s.mirror m.chain).table m.nodes m.horizon)
      .rankEnablement := by
  refine Schedule.forall_executions_mirror.2 fun e he hinner hle => ?_
  have hnode := hs.node_lt e he
  have hback := Chain.opposite_lt hnode
  obtain ⟨hzero, hheld⟩ := h e he ((Chain.isInner_opposite hnode).symm.trans hinner) hle
  have hrank : m.mirror.rank (e.mirror m.chain).node = m.rank e.node :=
    rank_mirror_opposite hm hnode
  rw [hrank]
  refine ⟨hzero, fun hranked other hwaits => ?_⟩
  obtain ⟨hother, hwaits⟩ := (waits_mirror hm hback).1 hwaits
  rw [Chain.opposite_opposite hnode] at hwaits
  refine (contains_cell_mirror hm hs hle hback).2 ⟨hother, ?_⟩
  rw [Chain.opposite_opposite hnode]
  exact hheld hranked _ hwaits

theorem propagation_mirror (hm : m.WellFormed) (hs : s.Within m.chain)
    (h : m.Satisfies s (s.table m.nodes m.horizon) .propagation) :
    m.mirror.Satisfies (s.mirror m.chain) ((s.mirror m.chain).table m.nodes m.horizon)
      .propagation := by
  intro time htime node (hnode : node < m.chain.nodes) result
  rw [contains_cell_mirror hm hs htime hnode, contains_cell_mirror hm hs (Nat.le_of_lt htime) hnode,
    Schedule.exists_message_mirror hs hm.le_capacity hnode result (· = time),
    Schedule.timeOf_mirror hs hnode, h time htime _ (Chain.opposite_lt hnode)]
  by_cases hlt : result < m.chain.nodes
  · simp only [hlt, true_and, Chain.opposite_inj hnode hlt]
  · have hne : node ≠ result := fun heq => hlt (heq ▸ hnode)
    simp only [hlt, hne, false_and, or_self]

theorem selfResult_mirror (hm : m.WellFormed) (hs : s.Within m.chain)
    (h : m.Satisfies s (s.table m.nodes m.horizon) .selfResult) :
    m.mirror.Satisfies (s.mirror m.chain) ((s.mirror m.chain).table m.nodes m.horizon)
      .selfResult := by
  intro time htime node (hnode : node < m.chain.nodes)
  obtain ⟨hresults, hown⟩ := h time htime _ (Chain.opposite_lt hnode)
  constructor
  · intro result hmem
    obtain ⟨hlt, hmem⟩ := (contains_cell_mirror hm hs htime hnode).1 hmem
    exact (Chain.isInner_opposite hlt).symm.trans (hresults _ hmem)
  · intro hinner
    rw [contains_cell_mirror hm hs htime hnode, Schedule.timeOf_mirror hs hnode]
    exact (and_iff_right hnode).trans (hown ((Chain.isInner_opposite hnode).trans hinner))

theorem initialization_mirror (hm : m.WellFormed) (hs : s.Within m.chain)
    (h : m.Satisfies s (s.table m.nodes m.horizon) .initialization) :
    m.mirror.Satisfies (s.mirror m.chain) ((s.mirror m.chain).table m.nodes m.horizon)
      .initialization := by
  intro node (hnode : node < m.chain.nodes) result
  rw [contains_cell_mirror hm hs (Nat.zero_le _) hnode, h _ (Chain.opposite_lt hnode),
    Chain.isInner_opposite hnode, Schedule.timeOf_mirror hs hnode, chain_mirror]
  constructor
  · rintro ⟨hlt, hinner, hown, hstart⟩
    exact ⟨hinner, (Chain.opposite_inj hnode hlt).1 hown, hstart⟩
  · rintro ⟨hinner, rfl, hstart⟩
    exact ⟨hnode, hinner, rfl, hstart⟩

/-- The endpoints change places, and what is asked of them is the same. -/
theorem boundaryCompleteness_mirror (hm : m.WellFormed) (hs : s.Within m.chain)
    (h : m.Satisfies s (s.table m.nodes m.horizon) .boundaryCompleteness) :
    m.mirror.Satisfies (s.mirror m.chain) ((s.mirror m.chain).table m.nodes m.horizon)
      .boundaryCompleteness := by
  intro result hinner
  have hlt : result < m.chain.nodes := Chain.lt_of_isInner hinner
  obtain ⟨hfirst, hlast⟩ := h _ ((Chain.isInner_opposite hlt).trans hinner)
  constructor
  · exact (contains_cell_mirror hm hs (Nat.le_refl _) hm.first_lt).2 ⟨hlt, hlast⟩
  · refine (contains_cell_mirror hm hs (Nat.le_refl _) hm.farEnd_lt).2 ⟨hlt, ?_⟩
    rw [Chain.opposite_farEnd]
    exact hfirst

theorem sendFeasibility_mirror (hm : m.WellFormed) (hs : s.Within m.chain)
    (h : m.Satisfies s (s.table m.nodes m.horizon) .sendFeasibility) :
    m.mirror.Satisfies (s.mirror m.chain) ((s.mirror m.chain).table m.nodes m.horizon)
      .sendFeasibility := by
  obtain ⟨hdistinct, hmessages⟩ := h
  constructor
  · show ((s.messages.map (.mirror m.chain)).map Message.slot).Nodup
    rw [List.map_map, List.Nodup, List.pairwise_map]
    refine (List.pairwise_map.1 hdistinct).imp_of_mem fun {a b} ha hb hne hsame => hne ?_
    simp only [Function.comp_apply, Message.slot, Message.mirror, Prod.mk.injEq,
      Chain.opposite_inj (hs.sender_lt a ha) (hs.sender_lt b hb),
      Chain.opposite_inj (hs.receiver_lt a ha) (hs.receiver_lt b hb)] at hsame
    simpa only [Message.slot, Prod.mk.injEq] using hsame
  · refine Schedule.forall_messages_mirror.2 fun a ha => ?_
    obtain ⟨⟨result, hcarries⟩, hresults, hle, hheld⟩ := hmessages a ha
    have hsender := hs.sender_lt a ha
    refine ⟨⟨m.chain.opposite result, ?_⟩, ?_, hle, ?_⟩
    · have hlt := hs.payload_lt a ha result hcarries
      exact (NodeSet.contains_mirror_opposite hm.le_capacity hlt).trans hcarries
    · intro result hcarries
      obtain ⟨hlt, hcarries⟩ := (NodeSet.contains_mirror hm.le_capacity).1 hcarries
      exact (Chain.isInner_opposite hlt).symm.trans (hresults _ hcarries)
    · intro hback result hcarries
      obtain ⟨hlt, hcarries⟩ := (NodeSet.contains_mirror hm.le_capacity).1 hcarries
      refine (contains_cell_mirror hm hs hle hback).2 ⟨hlt, ?_⟩
      show ((s.table m.nodes m.horizon).cell a.time
        (m.chain.opposite (m.chain.opposite a.sender))).contains _ = true
      rw [Chain.opposite_opposite hsender]
      exact hheld hsender _ hcarries

theorem adjacency_mirror (hs : s.Within m.chain) (h : m.Satisfies s p .adjacency) :
    m.mirror.Satisfies (s.mirror m.chain) p' .adjacency :=
  Schedule.forall_messages_mirror.2 fun a ha =>
    (Chain.sideBySide_opposite (hs.sender_lt a ha) (hs.receiver_lt a ha)).trans (h a ha)

theorem rankZeroAnnounce_mirror (hm : m.WellFormed) (hs : s.Within m.chain)
    (h : m.Satisfies s p .rankZeroAnnounce) :
    m.mirror.Satisfies (s.mirror m.chain) p' .rankZeroAnnounce := by
  rintro node (hnode : node < m.chain.nodes) hzero ⟨other, hother, hpos⟩
  have hback := Chain.opposite_lt hnode
  have hlt : other < m.chain.nodes := Chain.lt_of_mem_beside hnode hother
  rw [rank_mirror hm hnode] at hzero
  rw [rank_mirror hm hlt] at hpos
  obtain ⟨a, ha, hsender, hbeside, hranked⟩ := h _ hback hzero
    ⟨m.chain.opposite other, (Chain.mem_beside_opposite hnode hlt).2 hother, hpos⟩
  have hreceiver := hs.receiver_lt a ha
  refine ⟨a.mirror m.chain, List.mem_map_of_mem ha,
    (Chain.opposite_eq_iff (hs.sender_lt a ha) hnode).2 hsender, ?_, ?_⟩
  · rw [← Chain.mem_beside_opposite hback hreceiver, Chain.opposite_opposite hnode] at hbeside
    exact hbeside
  · exact (rank_mirror_opposite hm hreceiver).symm ▸ hranked

/-- What satisfies a rule does so when it is mirrored. -/
theorem mirror (hm : m.WellFormed) (hs : s.Within m.chain) {rule : Rule}
    (h : m.Satisfies s (s.table m.nodes m.horizon) rule) :
    m.mirror.Satisfies (s.mirror m.chain) ((s.mirror m.chain).table m.nodes m.horizon) rule := by
  cases rule with
  | taskExecution => exact h.taskExecution_mirror hs
  | rankEnablement => exact h.rankEnablement_mirror hm hs
  | propagation => exact h.propagation_mirror hm hs
  | selfResult => exact h.selfResult_mirror hm hs
  | initialization => exact h.initialization_mirror hm hs
  | boundaryCompleteness => exact h.boundaryCompleteness_mirror hm hs
  | sendFeasibility => exact h.sendFeasibility_mirror hm hs
  | adjacency => exact h.adjacency_mirror hs
  | rankZeroAnnounce => exact h.rankZeroAnnounce_mirror hm hs

end Satisfies

/-- And conversely, as the mirror image of the mirror image is the schedule itself. -/
theorem satisfies_mirror_iff (hm : m.WellFormed) (hs : s.Within m.chain) {rule : Rule} :
    m.mirror.Satisfies (s.mirror m.chain) ((s.mirror m.chain).table m.nodes m.horizon) rule ↔
      m.Satisfies s (s.table m.nodes m.horizon) rule := by
  refine ⟨fun h => ?_, fun h => h.mirror hm hs⟩
  have hback := h.mirror (wellFormed_mirror hm) (hs.mirror hm.le_capacity)
  rw [mirror_mirror hm, chain_mirror, Schedule.mirror_mirror hs hm.le_capacity] at hback
  exact hback

theorem isValid_mirror (hm : m.WellFormed) (hstore : m.Storable) (hs : s.Within m.chain) :
    ∃ valid, m.isValid s = .ok valid ∧ m.mirror.isValid (s.mirror m.chain) = .ok valid := by
  obtain ⟨breaches, hverdict, hfine⟩ := reports_verdict hm hstore s
  obtain ⟨mirrored, hverdict', hfine'⟩ :=
    reports_verdict (wellFormed_mirror hm) (storable_mirror hstore) (s.mirror m.chain)
  have hsame : mirrored = [] ↔ breaches = [] := by
    rw [hfine', hfine]
    exact forall₂_congr fun rule _ => satisfies_mirror_iff hm hs
  refine ⟨breaches.isEmpty, by rw [isValid, hverdict]; rfl, ?_⟩
  rw [isValid, hverdict', ok_bind, pure_eq_ok]
  rw [← List.isEmpty_iff, ← List.isEmpty_iff, ← Bool.eq_iff_iff] at hsame
  rw [hsame]

end Model

end ChainPropagation
