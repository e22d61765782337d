import ChainPropagation.Proofs.Possession

/-!
# The replay without a sweep

The replay of a schedule goes through the times and keeps one row that it adds
to.  `Schedule.shown` says what comes out without going through anything: the
result of a node from the first entry for its execution on, and whatever
messages to the node carry that were sent before.  This is so for every schedule,
whether it is valid or not (`replay_exact`).

An event is looked at for the node at which it happens, the one that executes or
is told, and for its time.  Who sends a message does not matter, nor how often an
event is listed, nor where.  So schedules that agree on the events within the
chain and the horizon have the same replay (`SameEvents.table_eq`), whatever else
they list.
-/

namespace ChainPropagation

namespace Schedule

variable {s : Schedule} {node result time : Nat}

/-- What the events of a schedule give to a node by a time: its own result if some
entry says that it executed by then, and the payloads of all messages to it that
were sent before. -/
def shown (s : Schedule) (node time : Nat) : NodeSet :=
  (if s.executions.any fun e => e.node == node && e.time ≤ time then .singleton node else ∅) ∪
    (s.messages.filter fun a => a.receiver == node && a.time < time).foldl
      (fun told a => told ∪ a.payload) ∅

theorem contains_shown (hnode : node < NodeSet.capacity) :
    (s.shown node time).contains result = true ↔
      (node = result ∧ ∃ e ∈ s.executions, e.node = node ∧ e.time ≤ time) ∨
        ∃ a ∈ s.messages, a.receiver = node ∧ a.time < time ∧
          a.payload.contains result = true := by
  rw [shown, NodeSet.contains_union, Bool.or_eq_true]
  apply or_congr
  · have hany : (s.executions.any fun e => e.node == node && e.time ≤ time) = true ↔
        ∃ e ∈ s.executions, e.node = node ∧ e.time ≤ time := by
      simp only [List.any_eq_true, Bool.and_eq_true, beq_iff_eq, decide_eq_true_eq]
    by_cases hexec : ∃ e ∈ s.executions, e.node = node ∧ e.time ≤ time
    · rw [if_pos (hany.2 hexec), NodeSet.contains_singleton, decide_eq_true_eq]
      constructor
      · rintro ⟨rfl, _⟩
        exact ⟨rfl, hexec⟩
      · rintro ⟨rfl, _⟩
        exact ⟨rfl, hnode⟩
    · rw [if_neg (mt hany.1 hexec), NodeSet.contains_empty]
      exact iff_of_false nofun fun h => hexec h.2
  · rw [Model.contains_foldl_union, NodeSet.contains_empty]
    simp only [Bool.false_eq_true, false_or, List.mem_filter, Bool.and_eq_true, beq_iff_eq,
      decide_eq_true_eq, and_assoc]

/-- A cell of the replayed table. -/
theorem cell_table {nodes horizon : Nat} (hcap : nodes ≤ NodeSet.capacity)
    (htime : time ≤ horizon) (hnode : node < nodes) :
    (s.table nodes horizon).cell time node = s.shown node time := by
  rw [NodeSet.eq_iff_contains]
  intro result
  rw [contains_cell_table hcap htime hnode, contains_shown (Nat.lt_of_lt_of_le hnode hcap)]

/-- What is shown stays. -/
theorem shown_isSubset (hnode : node < NodeSet.capacity) {later : Nat} (hle : time ≤ later) :
    (s.shown node time).isSubset (s.shown node later) = true := by
  rw [NodeSet.isSubset_iff]
  intro result
  rw [contains_shown hnode, contains_shown hnode]
  rintro (⟨hown, e, he, heq, htime⟩ | ⟨a, ha, hto, hsent, hcarries⟩)
  · exact .inl ⟨hown, e, he, heq, Nat.le_trans htime hle⟩
  · exact .inr ⟨a, ha, hto, Nat.lt_of_lt_of_le hsent hle, hcarries⟩

end Schedule

namespace Model

variable {m : Model} {s s' : Schedule}

/-- Two schedules list the same executions that count, and the same messages that
arrive at a node of the chain by the horizon. -/
structure SameEvents (m : Model) (s s' : Schedule) : Prop where
  executions : ∀ e, m.counts e = true → (e ∈ s.executions ↔ e ∈ s'.executions)
  messages : ∀ a : Message, a.receiver < m.nodes → a.time < m.horizon →
    (a ∈ s.messages ↔ a ∈ s'.messages)

namespace SameEvents

theorem symm (h : m.SameEvents s s') : m.SameEvents s' s where
  executions e he := (h.executions e he).symm
  messages a hto hsent := (h.messages a hto hsent).symm

/-- What is shown within the chain and the horizon, one of two such schedules
shows as well as the other. -/
theorem contains_of_contains (h : m.SameEvents s s') (hm : m.WellFormed) {time node result : Nat}
    (htime : time ≤ m.horizon) (hnode : node < m.nodes)
    (hshown : (s.shown node time).contains result = true) :
    (s'.shown node time).contains result = true := by
  have hcap : node < NodeSet.capacity := Nat.lt_of_lt_of_le hnode hm.le_capacity
  rw [Schedule.contains_shown hcap] at hshown ⊢
  rcases hshown with ⟨hown, e, he, rfl, hdone⟩ | ⟨a, ha, rfl, hsent, hcarries⟩
  · have hcounts : m.counts e = true := by
      simp only [counts, Bool.and_eq_true, decide_eq_true_eq]
      exact ⟨hnode, Nat.le_trans hdone htime⟩
    exact .inl ⟨hown, e, (h.executions e hcounts).1 he, rfl, hdone⟩
  · have hearly : a.time < m.horizon := Nat.lt_of_lt_of_le hsent htime
    exact .inr ⟨a, (h.messages a hnode hearly).1 ha, rfl, hsent, hcarries⟩

/-- They have the same replay. -/
theorem table_eq (h : m.SameEvents s s') (hm : m.WellFormed) :
    s.table m.nodes m.horizon = s'.table m.nodes m.horizon := by
  refine Possession.eq_of_cells rfl rfl (Schedule.size_cells_table _ _)
    (Schedule.size_cells_table _ _) ?_
  intro time htime node hnode
  have hshown : s.shown node time = s'.shown node time := by
    rw [NodeSet.eq_iff_contains]
    intro result
    exact ⟨h.contains_of_contains hm htime hnode, h.symm.contains_of_contains hm htime hnode⟩
  calc (s.table m.nodes m.horizon).cell time node
      = s.shown node time := Schedule.cell_table hm.le_capacity htime hnode
    _ = s'.shown node time := hshown
    _ = (s'.table m.nodes m.horizon).cell time node :=
        (Schedule.cell_table hm.le_capacity htime hnode).symm

end SameEvents

end Model

/-- The replay of a built model, for any schedule whatsoever.  It meets no fault,
its table has a row for each time and in it a cell for each node, and each cell is
what the events show by then.  So nothing is forgotten from one time to a later
one.  Events that happen at no node of the chain, or too late to be seen, change
nothing about it. -/
theorem replay_exact {p : Problem} {bank : RuleBank} {m : Model} (h : p.model bank = .ok m)
    (s : Schedule) :
    ∃ table, m.replay s = .ok table ∧ table.nodes = m.nodes ∧ table.horizon = m.horizon ∧
      table.cells.size = m.nodes * (m.horizon + 1) ∧
      (∀ time ≤ m.horizon, ∀ node < m.nodes, table.read time node = .ok (s.shown node time)) ∧
      (∀ time later, time ≤ later → later ≤ m.horizon → ∀ node < m.nodes,
        (table.cell time node).isSubset (table.cell later node) = true) ∧
      ∀ s', m.SameEvents s s' → m.replay s' = .ok table := by
  have hm := wellFormed_of_model h
  have hs := storable_of_model h
  have hcell : ∀ time ≤ m.horizon, ∀ node < m.nodes,
      (s.table m.nodes m.horizon).cell time node = s.shown node time :=
    fun time htime node hnode => Schedule.cell_table hm.le_capacity htime hnode
  refine ⟨s.table m.nodes m.horizon, Model.replay_eq hm hs s, rfl, rfl,
    Schedule.size_cells_table _ _, ?_, ?_, ?_⟩
  · intro time htime node hnode
    rw [(Model.covers_table s).read_eq htime hnode, hcell time htime node hnode]
  · intro time later hle hlater node hnode
    rw [hcell time (Nat.le_trans hle hlater) node hnode, hcell later hlater node hnode]
    exact Schedule.shown_isSubset (Nat.lt_of_lt_of_le hnode hm.le_capacity) hle
  · intro s' hsame
    rw [Model.replay_eq hm hs s', hsame.table_eq hm]

/-- Events that a search would not come up with: node 1 is listed twice and told by
a node that does not exist, and what it sends carries what it does not hold. -/
def hearsay : Schedule where
  executions := [⟨1, 2⟩, ⟨1, 1⟩]
  messages := [⟨9, 1, 0, .ofList [3, 40]⟩, ⟨1, 0, 2, .ofList [2]⟩]

/-- The same with events outside of the chain, past the horizon, or just at it. -/
def rumour : Schedule where
  executions := [⟨7, 0⟩, ⟨1, 1⟩, ⟨3, 4⟩, ⟨1, 2⟩]
  messages := [⟨1, 0, 2, .ofList [2]⟩, ⟨1, 6, 0, .ofList [1]⟩, ⟨9, 1, 0, .ofList [3, 40]⟩,
    ⟨3, 4, 3, .ofList [1, 2, 3]⟩, ⟨3, 4, wordLimit - 1, .ofList [3]⟩]

/-- Both have the same replay, in which node 1 holds what it was told from time 1
on, along with its own result. -/
theorem hearsay_replayed : meeting.model .standard = .ok meetingModel ∧
    meetingModel.SameEvents hearsay rumour ∧ ∃ table,
      meetingModel.replay hearsay = .ok table ∧ meetingModel.replay rumour = .ok table ∧
      table.read 0 1 = .ok ∅ ∧ table.read 1 1 = .ok (.ofList [1, 3, 40]) ∧
      table.read 3 0 = .ok (.ofList [2]) ∧ table.read 3 4 = .ok ∅ := by
  have hbuilt : meeting.model .standard = .ok meetingModel := rfl
  have hsame : meetingModel.SameEvents hearsay rumour :=
    { executions := by
        intro e hcounts
        simp only [hearsay, rumour, List.mem_cons, List.not_mem_nil, or_false]
        constructor
        · rintro (rfl | rfl) <;> simp
        · rintro (rfl | rfl | rfl | rfl) <;> simp_all [Model.counts, meetingModel]
      messages := by
        intro a hto hsent
        simp only [hearsay, rumour, List.mem_cons, List.not_mem_nil, or_false]
        constructor
        · rintro (rfl | rfl) <;> simp
        · rintro (rfl | rfl | rfl | rfl | rfl) <;> simp_all [meetingModel, wordLimit] }
  obtain ⟨table, hreplay, _, _, _, hread, _, hothers⟩ := replay_exact hbuilt hearsay
  exact ⟨hbuilt, hsame, table, hreplay, hothers rumour hsame, hread 0 (by decide) 1 (by decide),
    hread 1 (by decide) 1 (by decide), hread 3 (by decide) 0 (by decide),
    hread 3 (by decide) 4 (by decide)⟩

end ChainPropagation
