import ChainPropagation.Proofs.Possession
import ChainPropagation.Proofs.Step

/-!
# What a draft sets down is the replay

A draft keeps one row of holdings and one of messages on their way, and sets
down a row of its table at each time.  The replay of its schedule knows nothing
of this: it takes the events, put in order, and sweeps over the times once more.
Both come to the same table, whatever is executed and sent; here a node may
execute too early, an endpoint may execute, messages may go from anywhere to
anywhere and repeat each other.  So `Draft.Sound` is of no use, and the invariant
is `Draft.Records`: what is held, what is on its way and the rows set down so far
are what the events show, taken at their word.

## Main results

* `Records.executing`, `Records.noted`, `Records.sent`, `Records.delivered` —
  what the operations of a draft preserve.
* `Playing.turn_eq`, `Playing.turns_eq` — the same for one turn, and for a run.
* `play_replay` — every run ends, and the replay of its schedule is its table.
-/

namespace ChainPropagation

/-! ## Turns -/

/-- What happens at one time: nodes execute, and then messages are sent. -/
structure Turn where
  executing : List Nat
  sending : List (Nat × Nat)

/-- One turn: the executions, the row of the table, the messages, and time
passes. -/
def Draft.turn (d : Draft) (turn : Turn) : Checked Draft := do
  let e ← turn.executing.foldlM Draft.execute d
  let f ← turn.sending.foldlM (fun f link => f.send link.1 link.2) (← e.noteRow)
  f.passTime

/-- A draft made turn by turn.  At the last time nodes may still execute; then
the draft is settled. -/
def Model.play (m : Model) (turns : List Turn) (last : List Nat) : Checked Draft := do
  let d ← turns.foldlM Draft.turn (← m.blankDraft)
  let e ← last.foldlM Draft.execute d
  e.settle

/-- A run that can be made: its nodes are in the chain, none of them executes
twice, and there is time for all turns. -/
structure Model.Admits (m : Model) (turns : List Turn) (last : List Nat) : Prop where
  in_time : turns.length ≤ m.horizon
  once : (turns.flatMap Turn.executing ++ last).Nodup
  executing_lt : ∀ node ∈ turns.flatMap Turn.executing ++ last, node < m.nodes
  sending_lt : ∀ turn ∈ turns, ∀ link ∈ turn.sending, link.1 < m.nodes ∧ link.2 < m.nodes

/-! ## Rows of a table -/

theorem eq_of_getD {α : Type} {a b : Array α} (other : α) (hsize : a.size = b.size)
    (h : ∀ index < a.size, a.getD index other = b.getD index other) : a = b := by
  refine Array.ext hsize fun index ha hb => ?_
  have hsame := h index ha
  rwa [Array.getD_eq_getD_getElem?, Array.getD_eq_getD_getElem?, Array.getElem?_eq_getElem ha,
    Array.getElem?_eq_getElem hb] at hsame

theorem getD_toList (row : Array NodeSet) (node : Nat) :
    row.toList.getD node ∅ = row.getD node ∅ := by
  rw [Array.getD_eq_getD_getElem?, List.getD_eq_getElem?_getD, Array.getElem?_toList]

namespace Possession

theorem getD_splice (row : List NodeSet) (cells : Array NodeSet) (start : Nat) {at_ : Nat}
    (hin : at_ < cells.size) :
    (splice cells start row).getD at_ ∅ =
      if start ≤ at_ ∧ at_ < start + row.length then row.getD (at_ - start) ∅
      else cells.getD at_ ∅ := by
  induction row generalizing cells start with
  | nil =>
      have hnone : ¬ (start ≤ at_ ∧ at_ < start + 0) := by omega
      rw [splice, List.length_nil, if_neg hnone]
  | cons held row ih =>
      have hin' : at_ < (cells.setIfInBounds start held).size := by
        rw [Array.size_setIfInBounds]
        exact hin
      rw [splice, ih _ (start + 1) hin', List.length_cons]
      by_cases hfirst : at_ = start
      · subst hfirst
        have hlater : ¬ (at_ + 1 ≤ at_ ∧ at_ < at_ + 1 + row.length) := by omega
        have hhere : at_ ≤ at_ ∧ at_ < at_ + (row.length + 1) := by omega
        rw [if_neg hlater, if_pos hhere, Nat.sub_self, Array.getD_eq_getD_getElem?,
          Array.getElem?_setIfInBounds_self_of_lt hin]
        rfl
      · have hsame : (cells.setIfInBounds start held).getD at_ ∅ = cells.getD at_ ∅ := by
          rw [Array.getD_eq_getD_getElem?, Array.getD_eq_getD_getElem?,
            Array.getElem?_setIfInBounds_ne (Ne.symm hfirst)]
        rw [hsame]
        by_cases hlater : start + 1 ≤ at_ ∧ at_ < start + 1 + row.length
        · have hhere : start ≤ at_ ∧ at_ < start + (row.length + 1) := by omega
          have hnext : at_ - start = at_ - (start + 1) + 1 := by omega
          rw [if_pos hlater, if_pos hhere, hnext, List.getD_cons_succ]
        · have hnot : ¬ (start ≤ at_ ∧ at_ < start + (row.length + 1)) := by omega
          rw [if_neg hlater, if_neg hnot]

variable {p : Possession} {row : List NodeSet} {time node : Nat}

/-- A row that is written changes the cells of its own time only. -/
theorem cell_writeRow (now : Nat) (hrow : row.length = p.nodes) (hnode : node < p.nodes)
    (hin : p.place time node < p.cells.size) :
    (p.writeRow now row).cell time node =
      if time = now then row.getD node ∅ else p.cell time node := by
  have hsplice := getD_splice row p.cells (now * p.nodes) hin
  have hcell : (p.writeRow now row).cell time node =
      (splice p.cells (now * p.nodes) row).getD (p.place time node) ∅ := rfl
  rw [hcell, hsplice, hrow]
  unfold place
  by_cases hnow : time = now
  · subst hnow
    rw [if_pos rfl, if_pos (by omega), Nat.add_sub_cancel_left]
  · have hother : ¬ (now * p.nodes ≤ time * p.nodes + node ∧
        time * p.nodes + node < now * p.nodes + p.nodes) := by
      rcases Nat.lt_or_gt_of_ne hnow with hbefore | hafter
      · have hrows := Nat.mul_le_mul_right p.nodes (Nat.succ_le_of_lt hbefore)
        rw [Nat.succ_mul] at hrows
        omega
      · have hrows := Nat.mul_le_mul_right p.nodes (Nat.succ_le_of_lt hafter)
        rw [Nat.succ_mul] at hrows
        omega
    rw [if_neg hother, if_neg hnow]
    rfl

/-- The same row at several times. -/
theorem cell_foldl_writeRow (times : List Nat) (hrow : row.length = p.nodes)
    (hnode : node < p.nodes) (hin : p.place time node < p.cells.size) :
    (times.foldl (fun table now => table.writeRow now row) p).cell time node =
      if time ∈ times then row.getD node ∅ else p.cell time node := by
  induction times generalizing p with
  | nil => simp
  | cons now times ih =>
      have hin' : (p.writeRow now row).place time node < (p.writeRow now row).cells.size :=
        Nat.lt_of_lt_of_eq hin (size_splice row p.cells (now * p.nodes)).symm
      rw [List.foldl_cons, ih (p := p.writeRow now row) hrow hnode hin',
        cell_writeRow now hrow hnode hin]
      by_cases hnow : time = now
      · simp [hnow]
      · simp [hnow]

end Possession

theorem Model.Covers.writeRow {m : Model} {p : Possession} (h : m.Covers p) (now : Nat)
    (row : List NodeSet) : m.Covers (p.writeRow now row) :=
  { nodes_eq := h.nodes_eq
    horizon_eq := h.horizon_eq
    size_le := Nat.le_trans h.size_le (Nat.le_of_eq (Possession.size_splice _ _ _).symm) }

/-! ## What events show -/

/-- What events show does not depend on the order in which they are listed. -/
theorem Schedule.shownBefore_of_perm {s s' : Schedule} (hexec : s.executions.Perm s'.executions)
    (hsent : s.messages.Perm s'.messages) {node result now : Nat} :
    s.ShownBefore node result now ↔ s'.ShownBefore node result now := by
  unfold ShownBefore
  simp only [hexec.mem_iff, hsent.mem_iff]

namespace Draft

variable {m : Model} {d : Draft} {node result now upto : Nat}

/-- An execution shows from the next time on, at the node itself. -/
theorem shownBefore_executing {other : Nat} (hlt : other < d.executed.size)
    (hother : other < d.possession.nodes) (hfresh : d.executedAt other = none) :
    (d.executing other).events.ShownBefore node result now ↔
      d.events.ShownBefore node result now ∨
        (node = result ∧ other = node ∧ d.time < now) := by
  unfold Schedule.ShownBefore
  simp only [mem_executions_executing hlt hother hfresh]
  constructor
  · rintro (⟨hown, e, he | rfl, hat, hbefore⟩ | htold)
    · exact .inl (.inl ⟨hown, e, he, hat, hbefore⟩)
    · exact .inr ⟨hown, hat, hbefore⟩
    · exact .inl (.inr htold)
  · rintro ((⟨hown, e, he, hat, hbefore⟩ | htold) | ⟨hown, hat, hbefore⟩)
    · exact .inl ⟨hown, e, .inl he, hat, hbefore⟩
    · exact .inr htold
    · exact .inl ⟨hown, _, .inr rfl, hat, hbefore⟩

/-- A message shows no earlier than at the time after the next one. -/
theorem shownBefore_sent (sender receiver : Nat) (hnow : now ≤ d.time + 1) :
    (d.sent sender receiver).events.ShownBefore node result now ↔
      d.events.ShownBefore node result now := by
  unfold Schedule.ShownBefore
  apply or_congr_right
  constructor
  · rintro ⟨a, ha, hto, hbefore, hcarries⟩
    rcases mem_messages_sent.1 ha with hold | rfl
    · exact ⟨a, hold, hto, hbefore, hcarries⟩
    · simp only at hbefore
      omega
  · rintro ⟨a, ha, hto, hbefore, hcarries⟩
    exact ⟨a, mem_messages_sent.2 (.inl ha), hto, hbefore, hcarries⟩

theorem getD_toList_held (d : Draft) (node : Nat) : d.held.toList.getD node ∅ = d.holding node :=
  getD_toList d.held node

/-! ## Rows that are set down -/

/-- The rows that a draft sets down have a cell for each node. -/
theorem length_toList_held (hcovers : m.Covers d.possession) (hsize : d.held.size = m.nodes) :
    d.held.toList.length = d.possession.nodes := by
  rw [Array.length_toList, hsize, hcovers.nodes_eq]
  rfl

/-- The row of the present time says what is held now. -/
theorem cell_noted (hcovers : m.Covers d.possession) (hsize : d.held.size = m.nodes)
    {time : Nat} (htime : time ≤ m.horizon) (hnode : node < m.nodes) :
    d.noted.possession.cell time node =
      if time = d.time then d.holding node else d.possession.cell time node := by
  have hin : node < d.possession.nodes := Nat.lt_of_lt_of_eq hnode hcovers.nodes_eq.symm
  rw [Draft.noted, Possession.cell_writeRow d.time (length_toList_held hcovers hsize) hin
    (hcovers.place_lt htime hnode), getD_toList_held]

/-- So do the rows from there on, once the draft is settled. -/
theorem cell_settled (hcovers : m.Covers d.possession) (hsize : d.held.size = m.nodes)
    (hhorizon : d.horizon = m.horizon) (hle : d.time ≤ m.horizon) {time : Nat}
    (htime : time ≤ m.horizon) (hnode : node < m.nodes) :
    d.settled.possession.cell time node =
      if d.time ≤ time then d.holding node else d.possession.cell time node := by
  have hin : node < d.possession.nodes := Nat.lt_of_lt_of_eq hnode hcovers.nodes_eq.symm
  have hmem : time ∈ List.range' d.time (d.horizon + 1 - d.time) ↔ d.time ≤ time := by
    rw [List.mem_range'_1, hhorizon]
    omega
  rw [Draft.settled, Possession.cell_foldl_writeRow _ (length_toList_held hcovers hsize) hin
    (hcovers.place_lt htime hnode), getD_toList_held]
  simp only [hmem]

/-! ## Records -/

/-- What a draft holds, what is on its way and the rows before `upto` are what
the events show, taken at their word. -/
structure Records (m : Model) (upto : Nat) (d : Draft) : Prop where
  horizon_lt : m.horizon < storageLimit
  horizon_eq : d.horizon = m.horizon
  time_le : d.time ≤ m.horizon
  size_held : d.held.size = m.nodes
  size_inbox : d.inbox.size = m.nodes
  size_executed : d.executed.size = m.nodes
  nodes_possession : d.possession.nodes = m.nodes
  horizon_possession : d.possession.horizon = m.horizon
  size_cells : d.possession.cells.size = m.nodes * (m.horizon + 1)
  executed_by : ∀ e ∈ d.events.executions, e.time ≤ d.time
  sent_by : ∀ a ∈ d.events.messages, a.time ≤ d.time
  contains_holding : ∀ node < m.nodes, ∀ result, (d.holding node).contains result = true ↔
    d.events.ShownBefore node result (d.time + 1)
  contains_arriving : ∀ node < m.nodes, ∀ result, (d.arriving node).contains result = true ↔
    ∃ a ∈ d.events.messages, a.receiver = node ∧ a.time = d.time ∧
      a.payload.contains result = true
  contains_cell : ∀ time < upto, time ≤ m.horizon → ∀ node < m.nodes, ∀ result,
    (d.possession.cell time node).contains result = true ↔
      d.events.ShownBefore node result (time + 1)

namespace Records

theorem start (hs : m.Storable) : Records m 0 (start m) where
  horizon_lt := hs.horizon_lt
  horizon_eq := rfl
  time_le := Nat.zero_le _
  size_held := Array.size_replicate
  size_inbox := Array.size_replicate
  size_executed := Array.size_replicate
  nodes_possession := rfl
  horizon_possession := rfl
  size_cells := Array.size_replicate
  executed_by e he := by
    rw [executions_start] at he
    cases he
  sent_by a ha := by cases ha
  contains_holding node _ result := by
    rw [holding_start, NodeSet.contains_empty]
    apply iff_of_false (by decide)
    rintro (⟨_, e, he, _⟩ | ⟨a, ha, _⟩)
    · rw [executions_start] at he
      cases he
    · cases ha
  contains_arriving node _ result := by
    rw [arriving_start, NodeSet.contains_empty]
    apply iff_of_false (by decide)
    rintro ⟨a, ha, _⟩
    cases ha
  contains_cell time htime := absurd htime (Nat.not_lt_zero time)

/-- An execution changes what is held now, and no row before. -/
theorem executing (h : Records m d.time d) (hcap : m.nodes ≤ NodeSet.capacity) {other : Nat}
    (hother : other < m.nodes) (hfresh : d.executedAt other = none) :
    Records m d.time (d.executing other) := by
  have hlt : other < d.executed.size := by
    rw [h.size_executed]
    exact hother
  have hin : other < d.possession.nodes := by
    rw [h.nodes_possession]
    exact hother
  exact
    { horizon_lt := h.horizon_lt
      horizon_eq := h.horizon_eq
      time_le := h.time_le
      size_held := (size_held_executing d other).trans h.size_held
      size_inbox := h.size_inbox
      size_executed := (size_executed_executing d other).trans h.size_executed
      nodes_possession := h.nodes_possession
      horizon_possession := h.horizon_possession
      size_cells := h.size_cells
      executed_by := by
        intro e he
        rcases (mem_executions_executing hlt hin hfresh).1 he with hold | rfl
        · exact h.executed_by e hold
        · exact Nat.le_refl _
      sent_by := h.sent_by
      contains_holding := by
        intro node hnode result
        rw [contains_holding_executing d node result (by rw [h.size_held]; exact hother) (by omega),
          h.contains_holding node hnode]
        refine Iff.trans ?_ (shownBefore_executing hlt hin hfresh).symm
        simp [Draft.executing]
      contains_arriving := h.contains_arriving
      contains_cell := by
        intro time hbefore htime node hnode result
        refine (h.contains_cell time hbefore htime node hnode result).trans ?_
        rw [shownBefore_executing hlt hin hfresh]
        -- the rows that are set down are those of earlier times
        have hlate : ¬ d.time < time + 1 := by omega
        simp [hlate] }

theorem covers (h : Records m upto d) : m.Covers d.possession :=
  { nodes_eq := h.nodes_possession
    horizon_eq := h.horizon_possession
    size_le := Nat.le_of_eq h.size_cells.symm }

theorem fits (h : Records m upto d) : d.Fits m.nodes m.horizon where
  horizon_lt := h.horizon_lt
  time_le := h.time_le
  size_held := h.size_held
  size_inbox := h.size_inbox
  size_executed := h.size_executed
  nodes_possession := h.nodes_possession
  horizon_possession := h.horizon_possession
  size_cells := h.size_cells
  executed_le node time hexec := by
    have hlt : node < d.possession.nodes := by
      rw [h.nodes_possession, ← h.size_executed]
      exact lt_of_executedAt hexec
    exact Nat.le_trans (h.executed_by _ (mem_executions.2 ⟨hlt, hexec⟩)) h.time_le

/-- The row of a time says what is held then. -/
theorem noted (h : Records m d.time d) : Records m (d.time + 1) d.noted where
  horizon_lt := h.horizon_lt
  horizon_eq := h.horizon_eq
  time_le := h.time_le
  size_held := h.size_held
  size_inbox := h.size_inbox
  size_executed := h.size_executed
  nodes_possession := h.nodes_possession
  horizon_possession := h.horizon_possession
  size_cells := (Possession.size_splice _ _ _).trans h.size_cells
  executed_by := h.executed_by
  sent_by := h.sent_by
  contains_holding := h.contains_holding
  contains_arriving := h.contains_arriving
  contains_cell time hbefore htime node hnode result := by
    rw [cell_noted h.covers h.size_held htime hnode]
    by_cases hnow : time = d.time
    · rw [if_pos hnow, hnow]
      exact h.contains_holding node hnode result
    · rw [if_neg hnow]
      exact h.contains_cell time (by omega) htime node hnode result

/-- A message changes what is on its way. -/
theorem sent (h : Records m (d.time + 1) d) (sender : Nat) {receiver : Nat}
    (hreceiver : receiver < m.nodes) : Records m (d.time + 1) (d.sent sender receiver) where
  horizon_lt := h.horizon_lt
  horizon_eq := h.horizon_eq
  time_le := h.time_le
  size_held := h.size_held
  size_inbox := (size_inbox_sent d sender receiver).trans h.size_inbox
  size_executed := h.size_executed
  nodes_possession := h.nodes_possession
  horizon_possession := h.horizon_possession
  size_cells := h.size_cells
  executed_by := h.executed_by
  sent_by a ha := by
    rcases mem_messages_sent.1 ha with hold | rfl
    · exact h.sent_by a hold
    · exact Nat.le_refl _
  contains_holding node hnode result := by
    rw [holding_sent, h.contains_holding node hnode]
    exact (shownBefore_sent sender receiver (Nat.le_refl _)).symm
  contains_arriving node hnode result := by
    have hsize : receiver < d.inbox.size := by
      rw [h.size_inbox]
      exact hreceiver
    have hnew := exists_arriving_sent d sender receiver node result
    have hold := h.contains_arriving node hnode result
    rw [arriving_sent d node hsize]
    refine Iff.trans ?_ hnew.symm
    by_cases hto : receiver = node
    · rw [if_pos hto, NodeSet.contains_union, Bool.or_eq_true, hold]
      exact or_congr_right (and_iff_right hto).symm
    · rw [if_neg hto, hold]
      exact (or_iff_left fun hboth => hto hboth.1).symm
  contains_cell time hbefore htime node hnode result := by
    rw [shownBefore_sent sender receiver (by omega)]
    exact h.contains_cell time hbefore htime node hnode result

/-- What is held next is what the events show before the time after it. -/
theorem contains_holdingNext (h : Records m upto d) (hnode : node < m.nodes) (result : Nat) :
    (d.holdingNext node).contains result = true ↔
      d.events.ShownBefore node result (d.time + 1 + 1) := by
  have hnobody : ¬ (node = result ∧ ∃ e ∈ d.events.executions, e.node = node ∧
      e.time = d.time + 1) := by
    rintro ⟨_, e, he, _, hlate⟩
    have hle := h.executed_by e he
    omega
  rw [Draft.contains_holdingNext, h.contains_holding node hnode, h.contains_arriving node hnode,
    Schedule.shownBefore_succ_iff node result (d.time + 1), or_iff_left hnobody]
  simp only [Nat.add_right_cancel_iff]

/-- Time passes once the row has been set down. -/
theorem delivered (h : Records m (d.time + 1) d) (hlt : d.time < m.horizon) :
    Records m d.delivered.time d.delivered where
  horizon_lt := h.horizon_lt
  horizon_eq := h.horizon_eq
  time_le := hlt
  size_held := (size_held_delivered (h.size_held.trans h.size_inbox.symm)).trans h.size_held
  size_inbox := (size_inbox_delivered d).trans h.size_inbox
  size_executed := h.size_executed
  nodes_possession := h.nodes_possession
  horizon_possession := h.horizon_possession
  size_cells := h.size_cells
  executed_by e he := Nat.le_succ_of_le (h.executed_by e he)
  sent_by a ha := Nat.le_succ_of_le (h.sent_by a ha)
  contains_holding node hnode result := by
    rw [holding_delivered d node (h.size_held.trans h.size_inbox.symm)]
    exact h.contains_holdingNext hnode result
  contains_arriving node _ result := by
    rw [arriving_delivered, NodeSet.contains_empty]
    apply iff_of_false (by decide)
    rintro ⟨a, ha, _, hnow, _⟩
    have hle := h.sent_by a ha
    have hnow : a.time = d.time + 1 := hnow
    omega
  contains_cell := h.contains_cell

/-- If nothing is on its way, later times show no more than the present one. -/
theorem shownBefore_quiet (h : Records m upto d) (hquiet : d.Quiet) (hnode : node < m.nodes)
    (hnow : d.time ≤ now) : d.events.ShownBefore node result (now + 1) ↔
      d.events.ShownBefore node result (d.time + 1) := by
  constructor
  · rintro (⟨hown, e, he, hat, _⟩ | ⟨a, ha, hto, _, hcarries⟩)
    · exact .inl ⟨hown, e, he, hat, Nat.lt_succ_of_le (h.executed_by e he)⟩
    · have hearlier : a.time ≠ d.time := by
        intro hsent
        have harriving := (h.contains_arriving node hnode result).2 ⟨a, ha, hto, hsent, hcarries⟩
        rw [hquiet, NodeSet.contains_empty] at harriving
        cases harriving
      have hle := h.sent_by a ha
      exact .inr ⟨a, ha, hto, by omega, hcarries⟩
  · rintro (⟨hown, e, he, hat, hbefore⟩ | ⟨a, ha, hto, hbefore, hcarries⟩)
    · exact .inl ⟨hown, e, he, hat, by omega⟩
    · exact .inr ⟨a, ha, hto, by omega, hcarries⟩

/-- A draft that is settled while nothing is on its way has set down every row. -/
theorem contains_cell_settled (h : Records m d.time d) (hquiet : d.Quiet) {time : Nat}
    (htime : time ≤ m.horizon) (hnode : node < m.nodes) (result : Nat) :
    (d.settled.possession.cell time node).contains result = true ↔
      d.events.ShownBefore node result (time + 1) := by
  rw [cell_settled h.covers h.size_held h.horizon_eq h.time_le htime hnode]
  by_cases hnow : d.time ≤ time
  · rw [if_pos hnow, h.shownBefore_quiet hquiet hnode hnow]
    exact h.contains_holding node hnode result
  · rw [if_neg hnow]
    exact h.contains_cell time (Nat.lt_of_not_le hnow) htime node hnode result

/-- So its table is the one of its schedule. -/
theorem settled_eq_table (h : Records m d.time d) (hcap : m.nodes ≤ NodeSet.capacity)
    (hquiet : d.Quiet) : d.settled.possession = d.settled.schedule.table m.nodes m.horizon := by
  have hnodes : d.settled.possession.nodes = m.nodes :=
    (nodes_settled d).trans h.nodes_possession
  have hhorizon : d.settled.possession.horizon = m.horizon :=
    (Possession.horizon_foldl_writeRow _).trans h.horizon_possession
  have hsize : d.settled.possession.cells.size = m.nodes * (m.horizon + 1) :=
    (Possession.size_foldl_writeRow _).trans h.size_cells
  have htable := Possession.eq_table (p := d.settled.possession) (s := d.settled.schedule)
  rw [hnodes, hhorizon] at htable
  apply htable hcap hsize
  intro time htime node hnode result
  rw [schedule_settled, ← Schedule.shownBefore_of_perm (schedule_perm d).1 (schedule_perm d).2]
  exact h.contains_cell_settled hquiet htime hnode result

end Records

/-! ## Runs -/

/-- A draft between two turns, with the nodes that are to execute from now
on. -/
structure Playing (m : Model) (todo : List Nat) (d : Draft) : Prop where
  records : Records m d.time d
  quiet : d.Quiet
  once : todo.Nodup
  fresh : ∀ node ∈ todo, node < m.nodes ∧ d.executedAt node = none

namespace Playing

variable {todo : List Nat}

/-- One node executes. -/
theorem execute_eq {other : Nat} (h : Playing m (other :: todo) d)
    (hcap : m.nodes ≤ NodeSet.capacity) :
    d.execute other = .ok (d.executing other) ∧ Playing m todo (d.executing other) := by
  obtain ⟨hother, hfresh⟩ := h.fresh other List.mem_cons_self
  have hlt : other < d.executed.size := by
    rw [h.records.size_executed]
    exact hother
  have hnodup := List.nodup_cons.1 h.once
  refine ⟨Draft.execute_eq hlt (h.records.size_held.symm ▸ hother)
    (Nat.lt_of_lt_of_le hother hcap) hfresh, ?_⟩
  exact
    { records := h.records.executing hcap hother hfresh
      quiet := h.quiet
      once := hnodup.2
      fresh := by
        intro node hnode
        obtain ⟨hin, hnone⟩ := h.fresh node (List.mem_cons_of_mem other hnode)
        refine ⟨hin, ?_⟩
        rw [executedAt_executing d node hlt, if_neg]
        · exact hnone
        · rintro rfl
          exact hnodup.1 hnode }

/-- Nodes execute one after another. -/
theorem executions_eq (hcap : m.nodes ≤ NodeSet.capacity) (nodes : List Nat) :
    ∀ d : Draft, Playing m (nodes ++ todo) d →
      ∃ e, nodes.foldlM execute d = .ok e ∧ Playing m todo e ∧ e.time = d.time := by
  induction nodes with
  | nil =>
      intro d h
      exact ⟨d, rfl, h, rfl⟩
  | cons node nodes ih =>
      intro d h
      obtain ⟨hexec, hrest⟩ := h.execute_eq hcap
      obtain ⟨e, hfold, he, htime⟩ := ih (d.executing node) hrest
      refine ⟨e, ?_, he, htime⟩
      rw [List.foldlM_cons, hexec]
      exact hfold

end Playing

/-- Messages are sent one after another; no node executes meanwhile. -/
theorem Records.sends_eq (links : List (Nat × Nat))
    (hlinks : ∀ link ∈ links, link.1 < m.nodes ∧ link.2 < m.nodes) :
    ∀ d : Draft, Records m (d.time + 1) d →
      ∃ f, links.foldlM (fun f link => f.send link.1 link.2) d = .ok f ∧
        Records m (f.time + 1) f ∧ f.time = d.time ∧ f.executed = d.executed := by
  induction links with
  | nil =>
      intro d h
      exact ⟨d, rfl, h, rfl, rfl⟩
  | cons link links ih =>
      intro d h
      obtain ⟨hsender, hreceiver⟩ := hlinks link List.mem_cons_self
      have hsend : d.send link.1 link.2 = .ok (d.sent link.1 link.2) :=
        send_eq_sent (by rw [h.size_held]; exact hsender) (by rw [h.size_inbox]; exact hreceiver)
      have hrest := ih fun other hother => hlinks other (List.mem_cons_of_mem link hother)
      obtain ⟨f, hfold, hf, htime, hexecuted⟩ :=
        hrest (d.sent link.1 link.2) (h.sent link.1 hreceiver)
      refine ⟨f, ?_, hf, htime, hexecuted⟩
      rw [List.foldlM_cons, hsend]
      exact hfold

namespace Playing

variable {todo : List Nat}

theorem settle_eq (h : Playing m todo d) : d.settle = .ok d.settled :=
  h.records.fits.settle_eq h.records.horizon_eq h.quiet

/-- One turn. -/
theorem turn_eq {turn : Turn} (h : Playing m (turn.executing ++ todo) d)
    (hcap : m.nodes ≤ NodeSet.capacity) (hlt : d.time < m.horizon)
    (hlinks : ∀ link ∈ turn.sending, link.1 < m.nodes ∧ link.2 < m.nodes) :
    ∃ e, d.turn turn = .ok e ∧ Playing m todo e ∧ e.time = d.time + 1 := by
  obtain ⟨e, hexec, he, htime⟩ := executions_eq hcap turn.executing d h
  obtain ⟨f, hsends, hf, hsame, hexecuted⟩ :=
    Records.sends_eq turn.sending hlinks e.noted he.records.noted
  have hnow : f.time = d.time := hsame.trans htime
  have hleft : f.time < m.horizon := by omega
  refine ⟨f.delivered, ?_, ?_, congrArg (· + 1) hnow⟩
  · unfold Draft.turn
    rw [hexec, ok_bind, he.records.fits.noteRow_eq, ok_bind, hsends]
    exact hf.fits.passTime_eq hf.horizon_eq hleft
  · exact
      { records := hf.delivered hleft
        quiet := quiet_delivered f
        once := he.once
        fresh := by
          intro node hnode
          obtain ⟨hin, hnone⟩ := he.fresh node hnode
          have hsame : f.executedAt node = e.executedAt node :=
            congrArg (fun executed => executed.getD node none) hexecuted
          exact ⟨hin, hsame.trans hnone⟩ }

/-- All turns of a run. -/
theorem turns_eq (hcap : m.nodes ≤ NodeSet.capacity) (turns : List Turn)
    (hlinks : ∀ turn ∈ turns, ∀ link ∈ turn.sending, link.1 < m.nodes ∧ link.2 < m.nodes) :
    ∀ d : Draft, Playing m (turns.flatMap Turn.executing ++ todo) d →
      d.time + turns.length ≤ m.horizon →
      ∃ e, turns.foldlM Draft.turn d = .ok e ∧ Playing m todo e := by
  induction turns with
  | nil =>
      intro d h _
      exact ⟨d, rfl, h⟩
  | cons turn turns ih =>
      intro d h htime
      rw [List.flatMap_cons, List.append_assoc] at h
      rw [List.length_cons] at htime
      obtain ⟨e, hturn, he, hnext⟩ :=
        h.turn_eq hcap (by omega) (hlinks turn List.mem_cons_self)
      have hrest := ih fun other hother => hlinks other (List.mem_cons_of_mem turn hother)
      obtain ⟨f, hturns, hf⟩ := hrest e he (by omega)
      refine ⟨f, ?_, hf⟩
      rw [List.foldlM_cons, hturn]
      exact hturns

end Playing

end Draft

/-- Every run of a built model ends, and the replay of its schedule is the table
that it set down. -/
theorem play_replay {p : Problem} {bank : RuleBank} {m : Model} (h : p.model bank = .ok m)
    {turns : List Turn} {last : List Nat} (hadmits : m.Admits turns last) :
    ∃ d, m.play turns last = .ok d ∧ m.replay d.schedule = .ok d.possession := by
  have hm := wellFormed_of_model h
  have hs := storable_of_model h
  have hcap : m.nodes ≤ NodeSet.capacity := hm.le_capacity
  have hstart : Draft.Playing m (turns.flatMap Turn.executing ++ (last ++ [])) (.start m) :=
    { records := .start hs
      quiet := Draft.quiet_start m
      once := by
        rw [List.append_nil]
        exact hadmits.once
      fresh := by
        intro node hnode
        rw [List.append_nil] at hnode
        exact ⟨hadmits.executing_lt node hnode, Draft.executedAt_start m node⟩ }
  have htime : (Draft.start m).time + turns.length ≤ m.horizon := by
    rw [show (Draft.start m).time = 0 from rfl, Nat.zero_add]
    exact hadmits.in_time
  obtain ⟨d, hturns, hd⟩ := Draft.Playing.turns_eq hcap turns hadmits.sending_lt _ hstart htime
  obtain ⟨e, hlast, he, _⟩ := Draft.Playing.executions_eq hcap last d hd
  refine ⟨e.settled, ?_, ?_⟩
  · unfold Model.play
    rw [Draft.blankDraft_eq hs, ok_bind, hturns, ok_bind, hlast]
    exact he.settle_eq
  · rw [Model.replay_eq hm hs, he.records.settled_eq_table hcap he.quiet]

/-- A run that no search would make: an endpoint executes, a node that holds
nothing sends, one sends to itself, messages skip nodes and repeat each other. -/
def strayTurns : List Turn :=
  [⟨[3, 0], [(3, 2), (3, 2), (4, 0), (0, 3)]⟩, ⟨[1], [(2, 2), (1, 4)]⟩]

theorem strayTurns_replay : meeting.model .standard = .ok meetingModel ∧
    meetingModel.Admits strayTurns [2] ∧ ∃ d, meetingModel.play strayTurns [2] = .ok d ∧
      meetingModel.replay d.schedule = .ok d.possession :=
  have hbuilt : meeting.model .standard = .ok meetingModel := rfl
  have hadmits : meetingModel.Admits strayTurns [2] :=
    { in_time := by decide
      once := by decide
      executing_lt := by decide
      sending_lt := by decide }
  ⟨hbuilt, hadmits, play_replay hbuilt hadmits⟩

end ChainPropagation
