import ChainPropagation.Proofs.Lawful
import ChainPropagation.Proofs.Replay
import ChainPropagation.Draft

/-!
# Sound drafts

A draft is consistent if what it keeps account of agrees with its events: nodes
hold what the events give them, what is on its way is what was sent just now,
nodes executed when they were allowed to, and messages carried what their senders
held.  Every operation keeps a draft consistent, provided that executions and
messages are allowed when they happen, in whichever order; the invariant is
carried from the blank draft (`blank_sound`) through `Consistent.executing`,
`Consistent.sent` and `Consistent.delivered`.

In a step the executions come before the messages, and no message is repeated.
Such a draft is sound: it is an orderly schedule already (`Sound.orderly`), and a
lawful one if its endpoints hold everything (`Sound.lawful`), so that nothing is
left to be checked when it is settled.
-/

namespace ChainPropagation

/-! ## Tables -/

namespace Possession

variable {p : Possession} {row : List NodeSet}

theorem size_foldl_writeRow (times : List Nat) :
    (times.foldl (fun table now => table.writeRow now row) p).cells.size = p.cells.size := by
  induction times generalizing p with
  | nil => rfl
  | cons now times ih =>
      rw [List.foldl_cons, ih]
      exact size_splice row p.cells (now * p.nodes)

theorem horizon_foldl_writeRow (times : List Nat) :
    (times.foldl (fun table now => table.writeRow now row) p).horizon = p.horizon := by
  induction times generalizing p with
  | nil => rfl
  | cons now times ih => exact ih (p := p.writeRow now row)

end Possession

namespace Draft

/-! ## Events -/

/-- The events so far, not put in order. -/
def events (d : Draft) : Schedule where
  executions := d.executions
  messages := d.messages.toList

theorem mem_executions {d : Draft} {node time : Nat} :
    ⟨node, time⟩ ∈ d.events.executions ↔
      node < d.possession.nodes ∧ d.executedAt node = some time := by
  simp only [events, executions, List.mem_filterMap, List.mem_range, Option.map_eq_some_iff,
    Execution.mk.injEq]
  constructor
  · rintro ⟨_, hlt, _, hsome, rfl, rfl⟩
    exact ⟨hlt, hsome⟩
  · rintro ⟨hlt, hsome⟩
    exact ⟨node, hlt, time, hsome, rfl, rfl⟩

/-- The schedule of a draft lists its events in order. -/
theorem schedule_perm (d : Draft) :
    d.events.executions.Perm d.schedule.executions ∧
      d.events.messages.Perm d.schedule.messages :=
  ⟨(sorted_perm _ _).symm, (sorted_perm _ _).symm⟩

theorem cost_schedule (d : Draft) : d.schedule.cost = d.messages.size := by
  rw [Schedule.cost, ← (schedule_perm d).2.length_eq]
  rfl

/-! ## What operations do to the views -/

/-- The draft after a node executed. -/
def executing (d : Draft) (node : Nat) : Draft :=
  { d with
    executed := d.executed.setIfInBounds node (some d.time)
    held := d.held.modify node (·.insert node) }

theorem holdingChecked_eq {d : Draft} {node : Nat} (h : node < d.held.size) :
    d.holdingChecked node = .ok (d.holding node) := entry_eq ∅ h

theorem arrivingChecked_eq {d : Draft} {node : Nat} (h : node < d.inbox.size) :
    d.arrivingChecked node = .ok (d.arriving node) := entry_eq ∅ h

theorem holdingNextChecked_eq {d : Draft} {node : Nat} (hheld : node < d.held.size)
    (hinbox : node < d.inbox.size) : d.holdingNextChecked node = .ok (d.holdingNext node) := by
  rw [holdingNextChecked, holdingChecked_eq hheld, arrivingChecked_eq hinbox]
  rfl

theorem executedAtChecked_eq {d : Draft} {node : Nat} (h : node < d.executed.size) :
    d.executedAtChecked node = .ok (d.executedAt node) := entry_eq none h

theorem lt_of_executedAt {d : Draft} {node time : Nat} (h : d.executedAt node = some time) :
    node < d.executed.size := by
  rw [executedAt, Array.getD_eq_getD_getElem?] at h
  apply Nat.lt_of_not_le
  intro hle
  rw [Array.getElem?_eq_none hle] at h
  cases h

theorem execute_eq {d : Draft} {node : Nat} (hlt : node < d.executed.size)
    (hheld : node < d.held.size) (hcap : node < NodeSet.capacity)
    (hnone : d.executedAt node = none) : d.execute node = .ok (d.executing node) := by
  have hadd : amend d.held node (·.add node) = .ok (d.held.modify node (·.insert node)) :=
    amend_eq hheld fun held => if_pos hcap
  rw [execute, executedAtChecked_eq hlt, hnone]
  show (do let held ← amend d.held node (·.add node); _) = _
  rw [hadd]
  rfl

theorem eq_executing_of_execute {d e : Draft} {node : Nat} (hexec : d.execute node = .ok e) :
    e = d.executing node := by
  obtain ⟨executed, _, hexec⟩ := bind_eq_ok.1 hexec
  cases executed with
  | some time => cases hexec
  | none =>
      obtain ⟨held, hamend, hexec⟩ := bind_eq_ok.1 hexec
      have hmodify : held = d.held.modify node (·.insert node) := by
        refine eq_modify_of_amend (fun old new hadd => ?_) hamend
        unfold NodeSet.add at hadd
        split at hadd <;> cases hadd
        rfl
      rw [hmodify] at hexec
      cases hexec
      rfl

theorem executedAt_executing (d : Draft) {node : Nat} (other : Nat)
    (hlt : node < d.executed.size) :
    (d.executing node).executedAt other =
      if node = other then some d.time else d.executedAt other := by
  simp only [executedAt, executing, Array.getD_eq_getD_getElem?, Array.getElem?_setIfInBounds]
  split <;> rfl

theorem mem_executions_executing {d : Draft} {node : Nat} (hlt : node < d.executed.size)
    (hnode : node < d.possession.nodes) (hfresh : d.executedAt node = none) {e : Execution} :
    e ∈ (d.executing node).events.executions ↔ e ∈ d.events.executions ∨ e = ⟨node, d.time⟩ := by
  obtain ⟨at_, time⟩ := e
  rw [mem_executions, mem_executions, executedAt_executing d at_ hlt, Execution.mk.injEq]
  show at_ < d.possession.nodes ∧ _ ↔ _
  by_cases hat : node = at_
  · subst hat
    simp only [if_pos, hfresh, Option.some.injEq]
    constructor
    · exact fun hnew => .inr ⟨trivial, hnew.2.symm⟩
    · rintro (⟨_, hnone⟩ | ⟨_, rfl⟩)
      · cases hnone
      · exact ⟨hnode, rfl⟩
  · simp only [if_neg hat]
    constructor
    · exact .inl
    · rintro (hold | ⟨rfl, _⟩)
      · exact hold
      · exact absurd rfl hat

theorem contains_holding_executing (d : Draft) {node : Nat} (other result : Nat)
    (hlt : node < d.held.size) (hcap : node < NodeSet.capacity) :
    ((d.executing node).holding other).contains result = true ↔
      (d.holding other).contains result = true ∨ (other = result ∧ node = other) := by
  have hview : (d.executing node).holding other =
      if node = other then (d.holding other).insert node else d.holding other := by
    simp only [holding, executing, Array.getD_eq_getD_getElem?, Array.getElem?_modify]
    split
    · rename_i heq
      rw [Array.getElem?_eq_getElem (by omega)]
      rfl
    · rfl
  rw [hview]
  split
  · rename_i heq
    subst heq
    rw [NodeSet.contains_insert, Bool.or_eq_true, decide_eq_true_eq]
    refine or_congr_right ⟨fun h => ⟨h.1, rfl⟩, fun h => ⟨h.1, by omega⟩⟩
  · rename_i hne
    simp [hne]

theorem size_held_executing (d : Draft) (node : Nat) :
    (d.executing node).held.size = d.held.size := by
  rw [executing, Array.size_modify]

theorem size_executed_executing (d : Draft) (node : Nat) :
    (d.executing node).executed.size = d.executed.size := by
  rw [executing, Array.size_setIfInBounds]

/-- A message between nodes of the chain is sent. -/
theorem send_eq_sent {d : Draft} {sender receiver : Nat} (hsender : sender < d.held.size)
    (hreceiver : receiver < d.inbox.size) :
    d.send sender receiver = .ok (d.sent sender receiver) := by
  rw [send, if_pos hsender, if_pos hreceiver]

theorem eq_sent_of_send {d e : Draft} {sender receiver : Nat}
    (hsend : d.send sender receiver = .ok e) : e = d.sent sender receiver := by
  unfold Draft.send at hsend
  split at hsend
  · split at hsend
    · cases hsend
      rfl
    · cases hsend
  · cases hsend

theorem size_inbox_sent (d : Draft) (sender receiver : Nat) :
    (d.sent sender receiver).inbox.size = d.inbox.size := by
  rw [sent, Array.size_modify]

theorem arriving_sent (d : Draft) {sender receiver : Nat} (node : Nat)
    (hlt : receiver < d.inbox.size) : (d.sent sender receiver).arriving node =
      if receiver = node then d.arriving node ∪ d.holding sender else d.arriving node := by
  simp only [arriving, sent, Array.getD_eq_getD_getElem?, Array.getElem?_modify]
  split
  · rename_i heq
    rw [Array.getElem?_eq_getElem (by omega)]
    rfl
  · rfl

theorem contains_holdingNext {d : Draft} {node result : Nat} :
    (d.holdingNext node).contains result = true ↔
      (d.holding node).contains result = true ∨ (d.arriving node).contains result = true := by
  rw [holdingNext, NodeSet.contains_union, Bool.or_eq_true]

/-- Nothing that is held is forgotten. -/
theorem held_next {d : Draft} {node result : Nat}
    (hheld : (d.holding node).contains result = true) :
    (d.holdingNext node).contains result = true :=
  contains_holdingNext.2 (.inl hheld)

theorem holding_delivered (d : Draft) (node : Nat) (hsize : d.held.size = d.inbox.size) :
    d.delivered.holding node = d.holdingNext node := by
  simp only [holdingNext, holding, arriving, delivered, Array.getD_eq_getD_getElem?,
    Array.getElem?_zipWith]
  by_cases hlt : node < d.held.size
  · rw [Array.getElem?_eq_getElem hlt, Array.getElem?_eq_getElem (by omega)]
    rfl
  · rw [Array.getElem?_eq_none (by omega), Array.getElem?_eq_none (by omega)]
    rfl

theorem eq_delivered_of_passTime {d e : Draft} (hpass : d.passTime = .ok e) :
    d.time < d.horizon ∧ e = d.delivered := by
  unfold passTime at hpass
  split at hpass
  · rename_i hearly
    obtain ⟨_, _, hpass⟩ := bind_eq_ok.1 hpass
    cases hpass
    exact ⟨hearly, rfl⟩
  · cases hpass

theorem size_held_delivered {d : Draft} (hsize : d.held.size = d.inbox.size) :
    d.delivered.held.size = d.held.size := by
  rw [delivered, Array.size_zipWith, ← hsize, Nat.min_self]

theorem size_inbox_delivered (d : Draft) : d.delivered.inbox.size = d.inbox.size := by
  rw [delivered, Array.size_map]

@[simp] theorem arriving_delivered (d : Draft) (node : Nat) : d.delivered.arriving node = ∅ := by
  simp only [arriving, delivered, Array.getD_eq_getD_getElem?, Array.getElem?_map]
  cases d.inbox[node]? <;> rfl

/-- The rows that are set down are those that there is room for. -/
theorem eq_noted_of_noteRow {d e : Draft} (hnote : d.noteRow = .ok e) : e = d.noted := by
  obtain ⟨table, hwrite, hnote⟩ := bind_eq_ok.1 hnote
  unfold Possession.writeRowChecked at hwrite
  split at hwrite <;> cases hwrite
  cases hnote
  rfl

theorem eq_foldl_writeRow {row : List NodeSet} {times : List Nat} {p q : Possession}
    (hwrites : times.foldlM (fun table time => table.writeRowChecked time row) p = .ok q) :
    q = times.foldl (fun table time => table.writeRow time row) p := by
  induction times generalizing p with
  | nil =>
      cases hwrites
      rfl
  | cons time times ih =>
      rw [List.foldlM_cons] at hwrites
      obtain ⟨table, hwrite, hwrites⟩ := bind_eq_ok.1 hwrites
      unfold Possession.writeRowChecked at hwrite
      split at hwrite <;> cases hwrite
      exact ih hwrites

theorem eq_settled_of_settle {d e : Draft} (hsettle : d.settle = .ok e) : e = d.settled := by
  unfold settle at hsettle
  split at hsettle
  · obtain ⟨table, hwrites, hsettle⟩ := bind_eq_ok.1 hsettle
    rw [eq_foldl_writeRow hwrites] at hsettle
    cases hsettle
    rfl
  · cases hsettle

theorem nodes_settled (d : Draft) : d.settled.possession.nodes = d.possession.nodes := by
  simp only [settled]
  generalize List.range' d.time (d.horizon + 1 - d.time) = times
  generalize d.possession = table
  induction times generalizing table with
  | nil => rfl
  | cons time times ih => exact ih (table.writeRow time d.held.toList)

/-- A draft with nothing on its way. -/
def Quiet (d : Draft) : Prop := ∀ node, d.arriving node = ∅

/-- Only such a draft is settled. -/
theorem quiet_of_settle {d e : Draft} (hsettle : d.settle = .ok e) : d.Quiet := by
  unfold settle at hsettle
  split at hsettle
  · rename_i hall
    intro node
    rw [arriving, Array.getD_eq_getD_getElem?]
    cases hset : d.inbox[node]? with
    | none => rfl
    | some set =>
        obtain ⟨hlt, rfl⟩ := Array.getElem?_eq_some_iff.1 hset
        have hunset := NodeSet.isEmpty_iff.1 (Array.all_eq_true.1 hall node hlt)
        exact NodeSet.ext fun result => (hunset result).trans (NodeSet.contains_empty result).symm
  · cases hsettle

/-! ## Sizes -/

/-- A draft has an entry for each node and a cell for each node and time of a table, and
its times are times of the table. -/
structure Fits (nodes horizon : Nat) (d : Draft) : Prop where
  horizon_lt : horizon < storageLimit
  time_le : d.time ≤ horizon
  size_held : d.held.size = nodes
  size_inbox : d.inbox.size = nodes
  size_executed : d.executed.size = nodes
  nodes_possession : d.possession.nodes = nodes
  horizon_possession : d.possession.horizon = horizon
  size_cells : d.possession.cells.size = nodes * (horizon + 1)
  executed_le : ∀ node time, d.executedAt node = some time → time ≤ horizon

namespace Fits

variable {nodes horizon : Nat} {d : Draft}

/-- There is room for the row of each time of the table. -/
theorem writeRowChecked_eq {p : Possession} (hnodes : p.nodes = nodes)
    (hsize : p.cells.size = nodes * (horizon + 1)) (h : d.Fits nodes horizon) {time : Nat}
    (htime : time ≤ horizon) : p.writeRowChecked time d.held.toList =
      .ok (p.writeRow time d.held.toList) := by
  apply Possession.writeRowChecked_of_le
  · rw [hnodes, hsize]
    exact Nat.mul_le_mul_left nodes (Nat.succ_le_succ htime)
  · rw [Array.length_toList, h.size_held, hnodes]

theorem noteRow_eq (h : d.Fits nodes horizon) : d.noteRow = .ok d.noted := by
  rw [noteRow, h.writeRowChecked_eq h.nodes_possession h.size_cells h.time_le]
  rfl

/-- So there is for the rows of all times that are left. -/
theorem foldlM_writeRow_eq (h : d.Fits nodes horizon) (times : List Nat) :
    ∀ p : Possession, p.nodes = nodes → p.cells.size = nodes * (horizon + 1) →
      (∀ time ∈ times, time ≤ horizon) →
      times.foldlM (fun table time => table.writeRowChecked time d.held.toList) p =
        .ok (times.foldl (fun table time => table.writeRow time d.held.toList) p) := by
  induction times with
  | nil => exact fun _ _ _ _ => rfl
  | cons time times ih =>
      intro p hnodes hsize htimes
      rw [List.foldlM_cons, h.writeRowChecked_eq hnodes hsize (htimes time (by simp)), ok_bind]
      refine ih _ hnodes ?_ fun later hlater => htimes later (by simp [hlater])
      exact (Possession.size_splice _ _ _).trans hsize

/-- A draft with nothing on its way can be settled. -/
theorem settle_eq (h : d.Fits nodes horizon) (hhorizon : d.horizon = horizon)
    (hquiet : d.Quiet) : d.settle = .ok d.settled := by
  have hall : d.inbox.all (·.isEmpty) = true := by
    rw [Array.all_eq_true]
    intro node hlt
    have hempty := hquiet node
    rw [arriving, Array.getD_eq_getD_getElem?, Array.getElem?_eq_getElem hlt,
      Option.getD_some] at hempty
    rw [hempty]
    rfl
  rw [settle, if_pos hall, h.foldlM_writeRow_eq _ _ h.nodes_possession h.size_cells]
  · rfl
  · intro time htime
    have hin := List.mem_range'_1.1 htime
    omega

/-- Time can pass until the horizon, and is never too late for a machine word. -/
theorem passTime_eq (h : d.Fits nodes horizon) (hhorizon : d.horizon = horizon)
    (hearly : d.time < horizon) : d.passTime = .ok d.delivered := by
  have hword : d.time + 1 < wordLimit := by
    have hlimit := h.horizon_lt
    unfold storageLimit at hlimit
    unfold wordLimit
    omega
  rw [passTime, if_pos (hhorizon ▸ hearly), fitting_of_lt hword]
  rfl

/-- A draft keeps its tables when a message is sent. -/
theorem sent (h : d.Fits nodes horizon) (sender receiver : Nat) :
    (d.sent sender receiver).Fits nodes horizon where
  horizon_lt := h.horizon_lt
  time_le := h.time_le
  size_held := h.size_held
  size_inbox := (size_inbox_sent d sender receiver).trans h.size_inbox
  size_executed := h.size_executed
  nodes_possession := h.nodes_possession
  horizon_possession := h.horizon_possession
  size_cells := h.size_cells
  executed_le := h.executed_le

/-- So it does when messages are delivered. -/
theorem delivered (h : d.Fits nodes horizon) (hearly : d.time < horizon) :
    d.delivered.Fits nodes horizon where
  horizon_lt := h.horizon_lt
  time_le := hearly
  size_held := (size_held_delivered (h.size_held.trans h.size_inbox.symm)).trans h.size_held
  size_inbox := (size_inbox_delivered d).trans h.size_inbox
  size_executed := h.size_executed
  nodes_possession := h.nodes_possession
  horizon_possession := h.horizon_possession
  size_cells := h.size_cells
  executed_le := h.executed_le

/-- And when it is settled. -/
theorem settled (h : d.Fits nodes horizon) (hhorizon : d.horizon = horizon) :
    d.settled.Fits nodes horizon where
  horizon_lt := h.horizon_lt
  time_le := Nat.le_of_eq hhorizon
  size_held := h.size_held
  size_inbox := h.size_inbox
  size_executed := h.size_executed
  nodes_possession := (nodes_settled d).trans h.nodes_possession
  horizon_possession := (Possession.horizon_foldl_writeRow _).trans h.horizon_possession
  size_cells := (Possession.size_foldl_writeRow _).trans h.size_cells
  executed_le := h.executed_le

end Fits

/-! ## Soundness -/

/-- What a draft keeps account of agrees with its events, and the events were
allowed when they happened. -/
structure Consistent (m : Model) (d : Draft) : Prop where
  horizon_lt : m.horizon < storageLimit
  horizon_eq : d.horizon = m.horizon
  time_le : d.time ≤ m.horizon
  size_held : d.held.size = m.chain.nodes
  size_inbox : d.inbox.size = m.chain.nodes
  size_executed : d.executed.size = m.chain.nodes
  nodes_possession : d.possession.nodes = m.chain.nodes
  horizon_possession : d.possession.horizon = m.horizon
  size_cells : d.possession.cells.size = m.chain.nodes * (m.horizon + 1)
  executes : ∀ node time, d.executedAt node = some time →
    m.chain.isInner node = true ∧ time ≤ d.time ∧ (m.rank node = 0 → time = 0) ∧
      ∀ other, m.Waits node other → d.events.Holds node other time
  sends : ∀ a ∈ d.messages.toList, m.chain.sideBySide a.sender a.receiver = true ∧
    a.time ≤ d.time ∧ (∃ result, a.payload.contains result = true) ∧
      ∀ result, a.payload.contains result = true → d.events.Holds a.sender result a.time
  contains_holding : ∀ node result, (d.holding node).contains result = true ↔
    d.events.Holds node result d.time
  contains_arriving : ∀ node result, (d.arriving node).contains result = true ↔
    ∃ a ∈ d.messages.toList, a.receiver = node ∧ a.time = d.time ∧
      a.payload.contains result = true

theorem Consistent.fits {m : Model} {d : Draft} (h : d.Consistent m) :
    d.Fits m.chain.nodes m.horizon where
  horizon_lt := h.horizon_lt
  time_le := h.time_le
  size_held := h.size_held
  size_inbox := h.size_inbox
  size_executed := h.size_executed
  nodes_possession := h.nodes_possession
  horizon_possession := h.horizon_possession
  size_cells := h.size_cells
  executed_le node time hexec := Nat.le_trans (h.executes node time hexec).2.1 h.time_le

/-- A consistent draft in which no message is repeated, and those of the present
time carry all that their senders hold. -/
structure Sound (m : Model) (d : Draft) : Prop extends Consistent m d where
  full : ∀ a ∈ d.messages.toList, a.time = d.time → a.payload = d.holding a.sender
  distinct : (d.messages.toList.map Message.slot).Nodup

theorem Quiet.contains_holdingNext {d : Draft} (hquiet : d.Quiet) {node result : Nat} :
    (d.holdingNext node).contains result = true ↔ (d.holding node).contains result = true := by
  rw [Draft.contains_holdingNext, hquiet, NodeSet.contains_empty]
  simp

namespace Consistent

variable {m : Model} {d : Draft}

theorem mem_events (h : d.Consistent m) {node time : Nat} :
    ⟨node, time⟩ ∈ d.events.executions ↔ d.executedAt node = some time := by
  rw [mem_executions, h.nodes_possession]
  constructor
  · exact And.right
  · intro hexec
    exact ⟨Chain.lt_of_isInner (h.executes node time hexec).1, hexec⟩

/-- A node holds only results of nodes that executed. -/
theorem executed_of_contains (h : d.Consistent m) {node result : Nat}
    (hheld : (d.holding node).contains result = true) :
    ∃ time, d.executedAt result = some time := by
  obtain ⟨time, hexec, _⟩ := ((h.contains_holding node result).1 hheld).executed
  exact ⟨time, h.mem_events.1 hexec⟩

/-- A node that executed holds its own result. -/
theorem contains_own (h : d.Consistent m) {node time : Nat}
    (hexec : d.executedAt node = some time) :
    (d.holding node).contains node = true := by
  rw [h.contains_holding]
  exact .own (h.mem_events.2 hexec) (h.executes node time hexec).2.1

/-- A node without its own result did not execute. -/
theorem fresh_of_not_contains (h : d.Consistent m) {node : Nat}
    (hbare : ¬ (d.holding node).contains node = true) : d.executedAt node = none := by
  cases hexec : d.executedAt node with
  | none => rfl
  | some time => exact absurd (h.contains_own hexec) hbare

theorem isLocal (h : d.Consistent m) : d.events.Local :=
  fun a ha => (Chain.sideBySide_iff.1 (h.sends a ha).1).2.2

theorem lt_of_holds (h : d.Consistent m) {node result now : Nat}
    (hholds : d.events.Holds node result now) : node < m.chain.nodes := by
  cases hholds with
  | own executes _ =>
      exact Chain.lt_of_isInner (h.executes _ _ (h.mem_events.1 executes)).1
  | told sent receives _ _ _ => exact receives ▸ (Chain.sideBySide_iff.1 (h.sends _ sent).1).2.1

/-- If nothing is on its way, nothing was sent at the present time. -/
theorem sent_before (h : d.Consistent m) (hquiet : d.Quiet) :
    ∀ a ∈ d.messages.toList, a.time < d.time := by
  intro a ha
  obtain ⟨_, hle, ⟨result, hcarries⟩, _⟩ := h.sends a ha
  apply Nat.lt_of_le_of_ne hle
  intro hnow
  have harriving := (h.contains_arriving a.receiver result).2 ⟨a, ha, rfl, hnow, hcarries⟩
  rw [hquiet, NodeSet.contains_empty] at harriving
  cases harriving

end Consistent

/-- Whether a node may execute now. -/
structure Ready (m : Model) (d : Draft) (node : Nat) : Prop where
  inner : m.chain.isInner node = true
  fresh : d.executedAt node = none
  at_once : m.rank node = 0 → d.time = 0
  holds : ∀ other, m.Waits node other → (d.holding node).contains other = true

section

variable {m : Model} {d : Draft}

/-! ### Executions -/

namespace Consistent

theorem lt_executed (h : d.Consistent m) {node : Nat} (hready : d.Ready m node) :
    node < d.executed.size := by
  rw [h.size_executed]
  exact Chain.lt_of_isInner hready.inner

/-- An execution leaves alone what was held before it, and what is held now
changes by the own result only. -/
theorem holds_executing (h : d.Consistent m) {node : Nat} (hready : d.Ready m node)
    {other result now : Nat} (hnow : now ≤ d.time) :
    (d.executing node).events.Holds other result now ↔
      d.events.Holds other result now ∨ (other = result ∧ node = other ∧ now = d.time) := by
  have hnode : node < d.possession.nodes := by
    rw [h.nodes_possession]
    exact Chain.lt_of_isInner hready.inner
  have hmem : ∀ {e : Execution}, e ∈ (d.executing node).events.executions ↔
      e ∈ d.events.executions ∨ e = ⟨node, d.time⟩ :=
    mem_executions_executing (h.lt_executed hready) hnode hready.fresh
  constructor
  · intro hholds
    induction hholds with
    | own executes done =>
        rcases hmem.1 executes with hold | hnew
        · exact .inl (.own hold done)
        · cases hnew
          exact .inr ⟨rfl, rfl, by omega⟩
    | told sent receives arrived carries _ ih =>
        rcases ih (by omega) with hold | ⟨_, _, hlate⟩
        · exact .inl (.told sent receives arrived carries hold)
        · omega
  · rintro (hold | ⟨rfl, rfl, rfl⟩)
    · exact hold.transfer (Nat.le_refl _) (fun e he _ => hmem.2 (.inl he)) fun a ha _ => ha
    · exact .own (hmem.2 (.inr rfl)) (Nat.le_refl _)

theorem executing (h : d.Consistent m) (hm : m.WellFormed) {node : Nat}
    (hready : d.Ready m node) : (d.executing node).Consistent m := by
  have hlt := h.lt_executed hready
  have hcap : node < NodeSet.capacity := by
    have hle := hm.le_capacity
    rw [h.size_executed] at hlt
    omega
  have hmono : ∀ {other result now : Nat}, now ≤ d.time → d.events.Holds other result now →
      (d.executing node).events.Holds other result now :=
    fun hnow hholds => (h.holds_executing hready hnow).2 (.inl hholds)
  exact
    { horizon_lt := h.horizon_lt
      horizon_eq := h.horizon_eq
      time_le := h.time_le
      size_held := (size_held_executing d node).trans h.size_held
      size_inbox := h.size_inbox
      size_executed := (size_executed_executing d node).trans h.size_executed
      nodes_possession := h.nodes_possession
      horizon_possession := h.horizon_possession
      size_cells := h.size_cells
      executes := by
        intro other time hexec
        rw [executedAt_executing d other hlt] at hexec
        split at hexec
        · rename_i heq
          subst heq
          cases hexec
          refine ⟨hready.inner, Nat.le_refl _, hready.at_once, fun waited hwaits => ?_⟩
          exact hmono (Nat.le_refl _)
            ((h.contains_holding node waited).1 (hready.holds waited hwaits))
        · obtain ⟨hinner, hle, hzero, hwaits⟩ := h.executes other time hexec
          exact ⟨hinner, hle, hzero, fun waited hw => hmono hle (hwaits waited hw)⟩
      sends := by
        intro a ha
        obtain ⟨hbeside, hle, hsome, hheld⟩ := h.sends a ha
        exact ⟨hbeside, hle, hsome, fun result hc => hmono hle (hheld result hc)⟩
      contains_holding := by
        intro other result
        rw [contains_holding_executing d other result
          (by rw [h.size_held, ← h.size_executed]; exact hlt)
          hcap, h.contains_holding]
        refine Iff.trans ?_ (h.holds_executing hready (Nat.le_refl _)).symm
        simp
      contains_arriving := h.contains_arriving }

end Consistent

/-! ### Messages -/

theorem messages_sent (d : Draft) (sender receiver : Nat) :
    (d.sent sender receiver).messages.toList =
      d.messages.toList ++ [⟨sender, receiver, d.time, d.holding sender⟩] := by
  rw [sent, Array.toList_push]

theorem mem_messages_sent {d : Draft} {sender receiver : Nat} {a : Message} :
    a ∈ (d.sent sender receiver).messages.toList ↔
      a ∈ d.messages.toList ∨ a = ⟨sender, receiver, d.time, d.holding sender⟩ := by
  rw [messages_sent, List.mem_append, List.mem_singleton]

/-- What arrives next, by one more message. -/
theorem exists_arriving_sent (d : Draft) (sender receiver node result : Nat) :
    (∃ a ∈ (d.sent sender receiver).messages.toList, a.receiver = node ∧ a.time = d.time ∧
      a.payload.contains result = true) ↔
    (∃ a ∈ d.messages.toList, a.receiver = node ∧ a.time = d.time ∧
      a.payload.contains result = true) ∨
    (receiver = node ∧ (d.holding sender).contains result = true) := by
  constructor
  · rintro ⟨a, ha, hto, hnow, hcarries⟩
    rcases mem_messages_sent.1 ha with hold | rfl
    · exact .inl ⟨a, hold, hto, hnow, hcarries⟩
    · exact .inr ⟨hto, hcarries⟩
  · rintro (⟨a, ha, hto, hnow, hcarries⟩ | ⟨hto, hcarries⟩)
    · exact ⟨a, mem_messages_sent.2 (.inl ha), hto, hnow, hcarries⟩
    · exact ⟨_, mem_messages_sent.2 (.inr rfl), hto, rfl, hcarries⟩

/-- A message tells nothing before it is delivered. -/
theorem holds_sent (d : Draft) (sender receiver : Nat) {node result now : Nat}
    (hnow : now ≤ d.time) :
    (d.sent sender receiver).events.Holds node result now ↔ d.events.Holds node result now := by
  constructor
  · intro hholds
    refine hholds.transfer hnow (fun e he _ => he) fun a ha hlt => ?_
    rcases mem_messages_sent.1 ha with hold | rfl
    · exact hold
    · exact absurd hlt (Nat.lt_irrefl _)
  · intro hholds
    exact hholds.transfer hnow (fun e he _ => he) fun a ha _ => mem_messages_sent.2 (.inl ha)

theorem Consistent.sent (h : d.Consistent m) {sender receiver : Nat}
    (hbeside : m.chain.sideBySide sender receiver = true)
    (hsome : ∃ result, (d.holding sender).contains result = true) :
    (d.sent sender receiver).Consistent m := by
  have hrange := Chain.sideBySide_iff.1 hbeside
  exact
    { horizon_lt := h.horizon_lt
      horizon_eq := h.horizon_eq
      time_le := h.time_le
      size_held := h.size_held
      size_inbox := (size_inbox_sent d sender receiver).trans h.size_inbox
      size_executed := h.size_executed
      nodes_possession := h.nodes_possession
      horizon_possession := h.horizon_possession
      size_cells := h.size_cells
      executes := by
        intro node time hexec
        obtain ⟨hinner, hle, hzero, hwaits⟩ := h.executes node time hexec
        exact ⟨hinner, hle, hzero, fun other hw =>
          (holds_sent d sender receiver hle).2 (hwaits other hw)⟩
      sends := by
        intro a ha
        rcases mem_messages_sent.1 ha with hold | rfl
        · obtain ⟨hside, hle, hcarries, hheld⟩ := h.sends a hold
          exact ⟨hside, hle, hcarries, fun result hc =>
            (holds_sent d sender receiver hle).2 (hheld result hc)⟩
        · refine ⟨hbeside, Nat.le_refl _, hsome, fun result hc => ?_⟩
          exact (holds_sent d sender receiver (Nat.le_refl _)).2
            ((h.contains_holding sender result).1 hc)
      contains_holding := by
        intro node result
        rw [holding_sent, h.contains_holding]
        exact (holds_sent d sender receiver (Nat.le_refl _)).symm
      contains_arriving := by
        intro node result
        rw [arriving_sent d node (by rw [h.size_inbox]; exact hrange.2.1)]
        have hnew := exists_arriving_sent d sender receiver node result
        rw [← h.contains_arriving] at hnew
        refine Iff.trans ?_ hnew.symm
        split
        · rename_i hto
          simp [hto]
        · rename_i hto
          simp [hto] }

theorem Sound.sent (h : d.Sound m) {sender receiver : Nat}
    (hbeside : m.chain.sideBySide sender receiver = true)
    (hsome : ∃ result, (d.holding sender).contains result = true)
    (hfresh : ∀ a ∈ d.messages.toList, a.slot ≠ (sender, receiver, d.time)) :
    (d.sent sender receiver).Sound m :=
  { toConsistent := h.toConsistent.sent hbeside hsome
    full := by
      intro a ha hnow
      rcases mem_messages_sent.1 ha with hold | rfl
      · exact h.full a hold hnow
      · rfl
    distinct := by
      rw [messages_sent, List.map_append, List.nodup_append]
      refine ⟨h.distinct, by simp, fun slot hslot new hnew => ?_⟩
      obtain ⟨a, ha, rfl⟩ := List.mem_map.1 hslot
      rw [List.map_cons, List.map_nil, List.mem_singleton] at hnew
      rw [hnew]
      exact hfresh a ha }

/-! ### Time -/

namespace Consistent

/-- What is held next is held already or on its way. -/
theorem holds_next (h : d.Consistent m) (node result : Nat) :
    d.events.Holds node result (d.time + 1) ↔ (d.holdingNext node).contains result = true := by
  rw [Schedule.holds_succ_iff, contains_holdingNext, h.contains_holding, h.contains_arriving]
  apply or_congr_right
  constructor
  · rintro (⟨a, ha, hto, hnow, hc, _⟩ | ⟨_, hexec⟩)
    · exact ⟨a, ha, hto, hnow, hc⟩
    · have hle := (h.executes _ _ (h.mem_events.1 hexec)).2.1
      omega
  · rintro ⟨a, ha, hto, hnow, hc⟩
    exact .inl ⟨a, ha, hto, hnow, hc, hnow ▸ (h.sends a ha).2.2.2 result hc⟩

theorem delivered (h : d.Consistent m) (hlt : d.time < m.horizon) : d.delivered.Consistent m where
  horizon_lt := h.horizon_lt
  horizon_eq := h.horizon_eq
  time_le := hlt
  size_held := (size_held_delivered (h.size_held.trans h.size_inbox.symm)).trans h.size_held
  size_inbox := (size_inbox_delivered d).trans h.size_inbox
  size_executed := h.size_executed
  nodes_possession := h.nodes_possession
  horizon_possession := h.horizon_possession
  size_cells := h.size_cells
  executes node time hexec := by
    obtain ⟨hinner, hle, hzero, hwaits⟩ := h.executes node time hexec
    exact ⟨hinner, Nat.le_succ_of_le hle, hzero, hwaits⟩
  sends a ha := by
    obtain ⟨hside, hle, hcarries, hheld⟩ := h.sends a ha
    exact ⟨hside, Nat.le_succ_of_le hle, hcarries, hheld⟩
  contains_holding node result := by
    rw [holding_delivered d node (h.size_held.trans h.size_inbox.symm)]
    exact (h.holds_next node result).symm
  contains_arriving node result := by
    rw [arriving_delivered, NodeSet.contains_empty]
    apply iff_of_false (by decide)
    rintro ⟨a, ha, _, hnow, _⟩
    have hle := (h.sends a ha).2.1
    have hnow : a.time = d.time + 1 := hnow
    omega

/-- Setting down a row changes no account. -/
theorem noted (h : d.Consistent m) : d.noted.Consistent m where
  horizon_lt := h.horizon_lt
  horizon_eq := h.horizon_eq
  time_le := h.time_le
  size_held := h.size_held
  size_inbox := h.size_inbox
  size_executed := h.size_executed
  nodes_possession := h.nodes_possession
  horizon_possession := h.horizon_possession
  size_cells := (Possession.size_splice _ _ _).trans h.size_cells
  executes := h.executes
  sends := h.sends
  contains_holding := h.contains_holding
  contains_arriving := h.contains_arriving

end Consistent

theorem Sound.delivered (h : d.Sound m) (hlt : d.time < m.horizon) : d.delivered.Sound m :=
  { toConsistent := h.toConsistent.delivered hlt
    full := fun a ha hnow => absurd hnow (Nat.ne_of_lt (Nat.lt_succ_of_le (h.sends a ha).2.1))
    distinct := h.distinct }

end

/-! ## The beginning and the end -/

/-- Whether both endpoints hold every result. -/
def EndsHold (m : Model) (d : Draft) : Prop :=
  ∀ result, m.chain.isInner result = true →
    (d.holding 0).contains result = true ∧ (d.holding m.chain.farEnd).contains result = true

theorem quiet_delivered (d : Draft) : d.delivered.Quiet := arriving_delivered d

/-- The draft that schedules of a model begin with, if its table can be stored. -/
def start (m : Model) : Draft where
  time := 0
  horizon := m.horizon
  held := Array.replicate m.nodes ∅
  inbox := Array.replicate m.nodes ∅
  executed := Array.replicate m.nodes none
  messages := #[]
  possession := ⟨m.nodes, m.horizon, Array.replicate (m.nodes * (m.horizon + 1)) ∅⟩

theorem blankDraft_eq {m : Model} (hs : m.Storable) : m.blankDraft = .ok (start m) := by
  unfold Model.blankDraft
  rw [blank, show m.chain.nodes = m.nodes from rfl, Model.blank_eq_ok hs]
  rfl

@[simp] theorem holding_start (m : Model) (node : Nat) : (start m).holding node = ∅ := by
  rw [holding, start, Array.getD_eq_getD_getElem?, Array.getElem?_replicate]
  split <;> rfl

@[simp] theorem arriving_start (m : Model) (node : Nat) : (start m).arriving node = ∅ :=
  holding_start m node

@[simp] theorem executedAt_start (m : Model) (node : Nat) : (start m).executedAt node = none := by
  rw [executedAt, start, Array.getD_eq_getD_getElem?, Array.getElem?_replicate]
  split <;> rfl

@[simp] theorem executions_start (m : Model) : (start m).events.executions = [] := by
  rw [List.eq_nil_iff_forall_not_mem]
  rintro ⟨node, time⟩ he
  have hsome := (mem_executions.1 he).2
  rw [executedAt_start] at hsome
  cases hsome

theorem quiet_start (m : Model) : (start m).Quiet := arriving_start m

theorem consistent_start {m : Model} (hlt : m.horizon < storageLimit) : (start m).Consistent m where
  horizon_lt := hlt
  horizon_eq := rfl
  time_le := Nat.zero_le _
  size_held := Array.size_replicate
  size_inbox := Array.size_replicate
  size_executed := Array.size_replicate
  nodes_possession := rfl
  horizon_possession := rfl
  size_cells := Array.size_replicate
  executes node time hexec := by
    rw [executedAt_start] at hexec
    cases hexec
  sends a ha := by cases ha
  contains_holding node result := by
    rw [holding_start, NodeSet.contains_empty]
    apply iff_of_false (by decide)
    intro hholds
    obtain ⟨time, hexec, _⟩ := hholds.executed
    rw [executions_start] at hexec
    cases hexec
  contains_arriving node result := by
    rw [arriving_start, NodeSet.contains_empty]
    apply iff_of_false (by decide)
    rintro ⟨a, ha, _⟩
    cases ha

theorem sound_start {m : Model} (hlt : m.horizon < storageLimit) : (start m).Sound m :=
  { toConsistent := consistent_start hlt
    full := nofun
    distinct := .nil }

theorem blank_sound {m : Model} (hs : m.Storable) :
    ∃ d, m.blankDraft = .ok d ∧ d.Sound m ∧ d.Quiet ∧ d.time = 0 ∧
      d.messages = #[] ∧ ∀ node, d.executedAt node = none :=
  ⟨start m, blankDraft_eq hs, sound_start hs.horizon_lt, quiet_start m, rfl, rfl,
    executedAt_start m⟩

theorem nodup_executions (d : Draft) : d.events.executions.Nodup := by
  refine List.Nodup.filterMap ?_ List.nodup_range
  intro a b e ha hb
  obtain ⟨_, _, rfl⟩ := Option.map_eq_some_iff.1 ha
  obtain ⟨_, _, heq⟩ := Option.map_eq_some_iff.1 hb
  exact (congrArg Execution.node heq).symm

/-- A node that executed did so once. -/
theorem Consistent.countP_executions {m : Model} {d : Draft} (h : d.Consistent m) {node time : Nat}
    (hexec : d.executedAt node = some time) :
    d.events.executions.countP (·.node == node) = 1 := by
  have hsame : ∀ e ∈ d.events.executions, (e.node == node) = true ↔
      (e == ⟨node, time⟩) = true := by
    intro e he
    have hthere : d.executedAt e.node = some e.time := h.mem_events.1 he
    rw [beq_iff_eq, beq_iff_eq]
    constructor
    · intro hat
      rw [hat, hexec] at hthere
      cases e
      cases hat
      cases hthere
      rfl
    · intro hat
      rw [hat]
  have hcount : d.events.executions.countP (·.node == node) =
      d.events.executions.count ⟨node, time⟩ := List.countP_congr hsame
  rw [hcount]
  exact List.count_eq_one_of_mem (nodup_executions d) (h.mem_events.2 hexec)

/-- A node that did not execute is not listed. -/
theorem Consistent.countP_executions_of_fresh {m : Model} {d : Draft} (h : d.Consistent m)
    {node : Nat} (hfresh : d.executedAt node = none) :
    d.events.executions.countP (·.node == node) = 0 := by
  rw [List.countP_eq_zero]
  intro e he hat
  have hexec : d.executedAt e.node = some e.time := h.mem_events.1 he
  rw [beq_iff_eq.1 hat, hfresh] at hexec
  cases hexec

/-- A sound draft is an orderly schedule, even if the present time were the
horizon. -/
theorem Sound.orderly_now {m : Model} {d : Draft} (h : d.Sound m) :
    Model.Orderly { m with horizon := d.time } d.schedule := by
  have hevents : Model.Orderly { m with horizon := d.time } d.events :=
    { once := by
        intro node
        cases hexec : d.executedAt node with
        | none =>
            exact Nat.le_trans (Nat.le_of_eq (h.countP_executions_of_fresh hexec)) (Nat.zero_le 1)
        | some time => exact Nat.le_of_eq (h.countP_executions hexec)
      inner := fun e he => (h.executes e.node e.time (h.mem_events.1 he)).1
      in_time := fun e he => (h.executes e.node e.time (h.mem_events.1 he)).2.1
      at_once := fun e he => (h.executes e.node e.time (h.mem_events.1 he)).2.2.1
      enabled := fun e he _ other hother hlt =>
        (h.executes e.node e.time (h.mem_events.1 he)).2.2.2 other ⟨hother, hlt⟩
      sideBySide := fun a ha => (h.sends a ha).1
      sent_in_time := fun a ha => (h.sends a ha).2.1
      nonempty := fun a ha => (h.sends a ha).2.2.1
      distinct := h.distinct
      held := fun a ha => (h.sends a ha).2.2.2 }
  exact hevents.of_perm (schedule_perm d).1 (schedule_perm d).2

theorem Sound.orderly {m : Model} {d : Draft} (h : d.Sound m) : m.Orderly d.schedule :=
  h.orderly_now.of_horizon_le rfl rfl h.time_le

/-- What is held now, by the schedule. -/
theorem Consistent.contains_iff_holds {m : Model} {d : Draft} (h : d.Consistent m)
    {node result : Nat} : (d.holding node).contains result = true ↔
      d.schedule.Holds node result d.time := by
  rw [h.contains_holding]
  exact Schedule.holds_congr (schedule_perm d).1 (schedule_perm d).2

/-- A sound draft whose endpoints hold everything is a lawful schedule, even if
the present time were the horizon. -/
theorem Sound.lawful_now {m : Model} {d : Draft} (h : d.Sound m) (hends : d.EndsHold m) :
    Model.Lawful { m with horizon := d.time } d.schedule :=
  h.orderly_now.lawful fun node hinner =>
    ⟨h.contains_iff_holds.1 (hends node hinner).1, h.contains_iff_holds.1 (hends node hinner).2⟩

theorem Sound.lawful {m : Model} {d : Draft} (h : d.Sound m) (hends : d.EndsHold m) :
    m.Lawful d.schedule :=
  (h.lawful_now hends).of_horizon_le rfl rfl h.time_le

/-- A draft that is done: it has all its tables, and its schedule is lawful. -/
structure Finished (m : Model) (d : Draft) : Prop where
  fits : d.Fits m.chain.nodes m.horizon
  lawful : m.Lawful d.schedule

/-- The events are those of the nodes that the draft has. -/
theorem scheduleChecked_of_le {d : Draft} (h : d.possession.nodes ≤ d.executed.size) :
    d.scheduleChecked = .ok d.schedule := by
  have hlook : (List.range d.possession.nodes).mapM (fun node => do
      return (← d.executedAtChecked node).map fun time => ({ node, time } : Execution)) =
      .ok ((List.range d.possession.nodes).map fun node =>
        (d.executedAt node).map fun time => { node, time }) := by
    apply mapM_eq_ok
    intro node hnode
    rw [executedAtChecked_eq (Nat.lt_of_lt_of_le (List.mem_range.1 hnode) h)]
    rfl
  rw [scheduleChecked, hlook, ok_bind, List.filterMap_map]
  rfl

theorem Fits.scheduleChecked_eq {nodes horizon : Nat} {d : Draft} (h : d.Fits nodes horizon) :
    d.scheduleChecked = .ok d.schedule :=
  scheduleChecked_of_le (Nat.le_of_eq (h.nodes_possession.trans h.size_executed.symm))

/-- There is no other schedule. -/
theorem eq_schedule_of_scheduleChecked {d : Draft} {s : Schedule}
    (hschedule : d.scheduleChecked = .ok s) : s = d.schedule := by
  have hle : d.possession.nodes ≤ d.executed.size := by
    obtain ⟨executions, hlook, _⟩ := bind_eq_ok.1 hschedule
    refine Nat.le_of_not_lt fun hlt => ?_
    obtain ⟨_, hasked⟩ := exists_of_mapM hlook _ (List.mem_range.2 hlt)
    obtain ⟨_, hentry, _⟩ := bind_eq_ok.1 hasked
    exact Nat.lt_irrefl _ (lt_of_entry hentry).1
  rw [scheduleChecked_of_le hle] at hschedule
  cases hschedule
  rfl

/-- To settle a draft adds no event. -/
theorem events_settled (d : Draft) : d.settled.events = d.events := by
  have hexec : d.settled.executions = d.executions := by
    rw [executions, executions, nodes_settled]
    rfl
  rw [events, events, hexec]
  rfl

theorem schedule_settled (d : Draft) : d.settled.schedule = d.schedule :=
  congrArg Schedule.inOrder (events_settled d)

/-- A sound draft whose endpoints hold everything is done when it is settled. -/
theorem Sound.finished {m : Model} {d : Draft} (h : d.Sound m) (hends : d.EndsHold m) :
    d.settled.Finished m where
  fits := h.fits.settled h.horizon_eq
  lawful := by
    rw [schedule_settled]
    exact h.lawful hends

theorem endsHoldAll_settled (d : Draft) (c : Chain) :
    d.settled.endsHoldAll c = d.endsHoldAll c := rfl

end Draft

end ChainPropagation
