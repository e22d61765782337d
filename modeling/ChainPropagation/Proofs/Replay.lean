import ChainPropagation.Proofs.WellFormed
import ChainPropagation.Replay

/-!
# The replayed table in closed form

The replay sweeps over the times and carries one row along.  Cell by cell this
comes to a statement without any sweep: a node is shown to hold a result if it
is the node's own and the node executed by then, or if some message to the node
that was sent before carries it (`contains_cell_table`).

The row that is carried along is described by the events before a time
(`Schedule.ShownBefore`), so that the row of a time is the one before the next
time, and the sweep can be followed row by row (`RowBefore.rowAfter`).
-/

namespace ChainPropagation

/-! ## Entries of a row -/

theorem getD_modify {α : Type} (row : Array α) (at_ other : Nat) (f : α → α) (d : α)
    (h : other < row.size) :
    (row.modify at_ f).getD other d =
      if at_ = other then f (row.getD other d) else row.getD other d := by
  simp only [Array.getD_eq_getD_getElem?, Array.getElem?_modify,
    Array.getElem?_eq_getElem h, Option.map_some, Option.getD_some]
  split <;> rfl

/-- A fold that adds to one entry after another: an entry has in the end what it
had before and what was added to it. -/
theorem contains_foldl_modify {α : Type} (target : α → Nat) (gain : α → NodeSet → NodeSet)
    (gains : α → Nat → Prop)
    (hgain : ∀ a set i, (gain a set).contains i = true ↔ set.contains i = true ∨ gains a i)
    (due : List α) (row : Array NodeSet) {node : Nat} (h : node < row.size) (result : Nat) :
    ((due.foldl (fun row a => row.modify (target a) (gain a)) row).getD node ∅).contains
        result = true ↔
      (row.getD node ∅).contains result = true ∨
        ∃ a ∈ due, target a = node ∧ gains a result := by
  induction due generalizing row with
  | nil => simp
  | cons a due ih =>
      rw [List.foldl_cons, ih _ (by simpa using h), getD_modify _ _ _ _ _ h]
      by_cases hat : target a = node
      · rw [if_pos hat, hgain]
        simp [hat, or_assoc]
      · rw [if_neg hat]
        simp [hat]

theorem size_foldl_modify {α β : Type} (target : α → Nat) (gain : α → β → β)
    (due : List α) (row : Array β) :
    (due.foldl (fun row a => row.modify (target a) (gain a)) row).size = row.size := by
  induction due generalizing row with
  | nil => rfl
  | cons a due ih => rw [List.foldl_cons, ih, Array.size_modify]

namespace Schedule

/-! ## One row -/

/-- What the events before a time show, taken at their word. -/
def ShownBefore (s : Schedule) (node result now : Nat) : Prop :=
  (node = result ∧ ∃ e ∈ s.executions, e.node = node ∧ e.time < now) ∨
    ∃ a ∈ s.messages, a.receiver = node ∧ a.time + 1 < now ∧ a.payload.contains result = true

/-- A row that says what the events before a time show. -/
structure RowBefore (s : Schedule) (nodes now : Nat) (row : Array NodeSet) : Prop where
  size_eq : row.size = nodes
  contains_iff : ∀ node, node < nodes → ∀ result,
    (row.getD node ∅).contains result = true ↔ s.ShownBefore node result now

variable {s : Schedule} {nodes now : Nat} {row : Array NodeSet}

theorem size_deliver : (s.deliver nodes now row).size = row.size :=
  size_foldl_modify Message.receiver (fun a set => set ∪ a.payload) _ row

theorem size_compute : (s.compute nodes now row).size = row.size :=
  size_foldl_modify Execution.node (fun e (set : NodeSet) => set.insert e.node) _ row

theorem contains_deliver {node : Nat} (hnode : node < nodes) (h : node < row.size)
    (result : Nat) :
    ((s.deliver nodes now row).getD node ∅).contains result = true ↔
      (row.getD node ∅).contains result = true ∨
        ∃ a ∈ s.messages, a.receiver = node ∧ a.time + 1 = now ∧
          a.payload.contains result = true := by
  rw [deliver, contains_foldl_modify Message.receiver (fun a set => set ∪ a.payload)
    (fun a i => a.payload.contains i = true) (by simp) _ row h]
  apply or_congr_right
  constructor
  · rintro ⟨a, ha, hto, hcarries⟩
    obtain ⟨hmem, hdue⟩ := List.mem_filter.1 ha
    simp only [Bool.and_eq_true, decide_eq_true_eq, beq_iff_eq] at hdue
    exact ⟨a, hmem, hto, hdue.2, hcarries⟩
  · rintro ⟨a, hmem, hto, hdue, hcarries⟩
    refine ⟨a, List.mem_filter.2 ⟨hmem, ?_⟩, hto, hcarries⟩
    simp only [Bool.and_eq_true, decide_eq_true_eq, beq_iff_eq]
    exact ⟨by omega, hdue⟩

theorem contains_compute {node : Nat} (hnode : node < nodes) (hcap : nodes ≤ NodeSet.capacity)
    (h : node < row.size) (result : Nat) :
    ((s.compute nodes now row).getD node ∅).contains result = true ↔
      (row.getD node ∅).contains result = true ∨
        (node = result ∧ ∃ e ∈ s.executions, e.node = node ∧ e.time = now) := by
  rw [compute, contains_foldl_modify Execution.node (fun e set => set.insert e.node)
    (fun e i => e.node = i ∧ i < NodeSet.capacity) (by simp) _ row h]
  apply or_congr_right
  constructor
  · rintro ⟨e, he, hat, hown, _⟩
    obtain ⟨hmem, hdue⟩ := List.mem_filter.1 he
    simp only [Bool.and_eq_true, decide_eq_true_eq, beq_iff_eq] at hdue
    exact ⟨hat.symm.trans hown, e, hmem, hat, hdue.2⟩
  · rintro ⟨rfl, e, hmem, hat, hdue⟩
    refine ⟨e, List.mem_filter.2 ⟨hmem, ?_⟩, hat, hat, by omega⟩
    simp only [Bool.and_eq_true, decide_eq_true_eq, beq_iff_eq]
    exact ⟨by omega, hdue⟩

theorem rowBefore_zero : s.RowBefore nodes 0 (Array.replicate nodes ∅) where
  size_eq := Array.size_replicate
  contains_iff node hnode result := by
    constructor
    · intro h
      simp [hnode] at h
    · rintro (⟨_, e, _, _, hlt⟩ | ⟨a, _, _, hlt, _⟩) <;> omega

/-- What the events of a time show comes on top of what those before it did. -/
theorem shownBefore_succ_iff (node result now : Nat) : s.ShownBefore node result (now + 1) ↔
    s.ShownBefore node result now ∨
    (∃ a ∈ s.messages, a.receiver = node ∧ a.time + 1 = now ∧
      a.payload.contains result = true) ∨
    (node = result ∧ ∃ e ∈ s.executions, e.node = node ∧ e.time = now) := by
  unfold ShownBefore
  constructor
  · rintro (⟨hown, e, he, hat, hlt⟩ | ⟨a, ha, hto, hlt, hc⟩)
    · by_cases hdue : e.time = now
      · exact .inr (.inr ⟨hown, e, he, hat, hdue⟩)
      · exact .inl (.inl ⟨hown, e, he, hat, by omega⟩)
    · by_cases hdue : a.time + 1 = now
      · exact .inr (.inl ⟨a, ha, hto, hdue, hc⟩)
      · exact .inl (.inr ⟨a, ha, hto, by omega, hc⟩)
  · rintro ((⟨hown, e, he, hat, hlt⟩ | ⟨a, ha, hto, hlt, hc⟩) | ⟨a, ha, hto, hdue, hc⟩ |
      ⟨hown, e, he, hat, hdue⟩)
    · exact .inl ⟨hown, e, he, hat, by omega⟩
    · exact .inr ⟨a, ha, hto, by omega, hc⟩
    · exact .inr ⟨a, ha, hto, by omega, hc⟩
    · exact .inl ⟨hown, e, he, hat, by omega⟩

/-- The row of a time is the row before the next time. -/
theorem RowBefore.rowAfter (h : s.RowBefore nodes now row) (hcap : nodes ≤ NodeSet.capacity) :
    s.RowBefore nodes (now + 1) (s.rowAfter nodes now row) where
  size_eq := by rw [Schedule.rowAfter, size_compute, size_deliver, h.size_eq]
  contains_iff node hnode result := by
    have hrow : node < row.size := by rw [h.size_eq]; exact hnode
    rw [Schedule.rowAfter, contains_compute hnode hcap (by rw [size_deliver]; exact hrow),
      contains_deliver hnode hrow, h.contains_iff node hnode, or_assoc, shownBefore_succ_iff]

/-! ## All rows -/

theorem size_appendRows (h : row.size = nodes) (count : Nat) (cells : Array NodeSet) :
    (s.appendRows nodes count now row cells).size = cells.size + nodes * count := by
  induction count generalizing now row cells with
  | zero => rfl
  | succ count ih =>
      have hsize : (s.rowAfter nodes now row).size = nodes := by
        rw [rowAfter, size_compute, size_deliver, h]
      rw [appendRows, ih hsize, Array.size_append, hsize, Nat.mul_succ]
      omega

/-- Rows that are appended leave the cells before them alone. -/
theorem getD_appendRows_of_lt (count : Nat) (cells : Array NodeSet) {at_ : Nat}
    (h : at_ < cells.size) :
    (s.appendRows nodes count now row cells).getD at_ ∅ = cells.getD at_ ∅ := by
  induction count generalizing now row cells with
  | zero => rfl
  | succ count ih =>
      rw [appendRows, ih _ (by rw [Array.size_append]; omega)]
      simp only [Array.getD_eq_getD_getElem?, Array.getElem?_append_left h]

theorem contains_appendRows (hcap : nodes ≤ NodeSet.capacity) (count : Nat)
    (hrow : s.RowBefore nodes now row) (cells : Array NodeSet) {later node : Nat}
    (hlater : later < count) (hnode : node < nodes) (result : Nat) :
    ((s.appendRows nodes count now row cells).getD (cells.size + later * nodes + node)
        ∅).contains result = true ↔
      s.ShownBefore node result (now + later + 1) := by
  induction count generalizing now row cells later with
  | zero => omega
  | succ count ih =>
      have hnext := hrow.rowAfter hcap
      have hsize : (cells ++ s.rowAfter nodes now row).size = cells.size + nodes := by
        rw [Array.size_append, hnext.size_eq]
      rw [appendRows]
      cases later with
      | zero =>
          -- this row itself, which the rows after it leave alone
          rw [getD_appendRows_of_lt _ _ (by omega), Nat.zero_mul, Nat.add_zero, Nat.add_zero,
            Array.getD_eq_getD_getElem?, Array.getElem?_append_right (by omega),
            Nat.add_sub_cancel_left, ← Array.getD_eq_getD_getElem?]
          exact hnext.contains_iff node hnode result
      | succ later =>
          have hplace : cells.size + (later + 1) * nodes + node =
              (cells ++ s.rowAfter nodes now row).size + later * nodes + node := by
            rw [hsize, Nat.succ_mul]
            omega
          rw [hplace, ih hnext _ (by omega), show now + 1 + later + 1 = now + (later + 1) + 1 by
            omega]

theorem size_cells_table (nodes horizon : Nat) :
    (s.table nodes horizon).cells.size = nodes * (horizon + 1) := by
  rw [table, size_appendRows Array.size_replicate]
  simp

/-- A cell of the replayed table says what the events before the next time
show. -/
theorem contains_cell_table_iff (hcap : nodes ≤ NodeSet.capacity) {horizon time node : Nat}
    (htime : time ≤ horizon) (hnode : node < nodes) (result : Nat) :
    ((s.table nodes horizon).cell time node).contains result = true ↔
      s.ShownBefore node result (time + 1) := by
  have hcells := contains_appendRows hcap (horizon + 1) (rowBefore_zero (s := s)) #[]
    (Nat.lt_succ_of_le htime) hnode result
  rw [Array.size_empty, Nat.zero_add, Nat.zero_add] at hcells
  exact hcells

/-- The replayed table in closed form. -/
theorem contains_cell_table (hcap : nodes ≤ NodeSet.capacity) {horizon time node : Nat}
    (htime : time ≤ horizon) (hnode : node < nodes) (result : Nat) :
    ((s.table nodes horizon).cell time node).contains result = true ↔
      (node = result ∧ ∃ e ∈ s.executions, e.node = node ∧ e.time ≤ time) ∨
        ∃ a ∈ s.messages, a.receiver = node ∧ a.time < time ∧
          a.payload.contains result = true := by
  rw [contains_cell_table_iff hcap htime hnode]
  simp only [ShownBefore, Nat.lt_succ_iff, Nat.succ_le_iff]

end Schedule

/-! ## No fault -/

namespace Model

variable {m : Model}

/-- The times of a table that can be stored are numbers, and so is the one after the last. -/
theorem Storable.fitting_eq (hs : m.Storable) {time : Nat} (htime : time ≤ m.horizon + 1) :
    fitting time = .ok time := by
  apply fitting_of_lt
  have htimes := hs.times
  unfold storageLimit at htimes
  unfold wordLimit
  omega

theorem blank_eq_ok (hs : m.Storable) : Possession.blank m.nodes m.horizon =
    .ok ⟨m.nodes, m.horizon, Array.replicate (m.nodes * (m.horizon + 1)) ∅⟩ := by
  rw [Possession.blank, hs.fitting_eq (Nat.le_refl _)]
  show (do storing (m.chain.nodes * (m.horizon + 1)); _) = _
  rw [storing_of_lt hs.table]
  rfl

/-- The replay of a well-formed model meets no fault: it is the table. -/
theorem replay_eq (hm : m.WellFormed) (hs : m.Storable) (s : Schedule) :
    m.replay s = .ok (s.table m.nodes m.horizon) := by
  have hsmall : s.executions.find? (fun e => m.counts e && NodeSet.capacity ≤ e.node) = none := by
    rw [List.find?_eq_none]
    intro e _ hbig
    have hcap := hm.le_capacity
    simp only [counts, Bool.and_eq_true, decide_eq_true_eq] at hbig
    rw [nodes_eq] at hbig
    omega
  rw [replay, blank_eq_ok hs]
  show (do storing (3 * (m.horizon + 1)); _) = _
  rw [storing_of_lt hs.times, hsmall]
  rfl

/-- A table that cannot be stored is no reason to judge: there is no replay. -/
theorem replay_of_not_storable (hs : ¬ m.Storable) (s : Schedule) :
    m.replay s = .error .tooLarge := by
  unfold replay Possession.blank fitting storing
  by_cases hword : m.horizon + 1 < wordLimit
  · by_cases htable : m.nodes * (m.horizon + 1) < storageLimit
    · have htimes : ¬ 3 * (m.horizon + 1) < storageLimit := fun htimes => hs ⟨htable, htimes⟩
      rw [if_pos hword, ok_bind, if_pos htable, if_neg htimes]
      rfl
    · rw [if_pos hword, ok_bind, if_neg htable]
      rfl
  · rw [if_neg hword]
    rfl

end Model

end ChainPropagation
