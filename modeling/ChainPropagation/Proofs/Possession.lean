import ChainPropagation.Proofs.Verdict

/-!
# A claimed table has no freedom

`Model.judge` takes a table on trust and asks local questions about it: what
its first row is, how each row follows from the one before, when a node holds
its own result.  Under the standard rules these questions have one answer only,
the replayed table.

The rules look at the first entry of a node's executions, while the replay
counts every entry.  That makes no difference here, as one of the rules allows a
single entry for each node.

## Main results

* `eq_table` — a table whose cells say what the events show is the replay.
* `contains_cell_iff_shownBefore` — the rules determine the cells, row by row.
* `judge_eq_nil_iff` — the judge passes the replay of a valid schedule, and no
  other table with as many cells as its size announces.
-/

namespace ChainPropagation

/-! ## Tables and their cells -/

namespace Possession

/-- Each of the cells that the size of a table announces is one of a node at a
time. -/
theorem exists_place_eq (p : Possession) {at_ : Nat} (h : at_ < p.nodes * (p.horizon + 1)) :
    ∃ time node, time ≤ p.horizon ∧ node < p.nodes ∧ p.place time node = at_ := by
  have hpos : 0 < p.nodes := Nat.pos_of_mul_pos_right (Nat.zero_lt_of_lt h)
  have htime : at_ / p.nodes < p.horizon + 1 := Nat.div_lt_of_lt_mul h
  exact ⟨at_ / p.nodes, at_ % p.nodes, Nat.le_of_lt_succ htime, Nat.mod_lt _ hpos,
    Nat.div_add_mod' at_ p.nodes⟩

/-- Two tables of one size, with just the cells that it announces, are the same
if they agree on each node and time. -/
theorem eq_of_cells {p q : Possession} (hnodes : p.nodes = q.nodes)
    (hhorizon : p.horizon = q.horizon) (hp : p.cells.size = p.nodes * (p.horizon + 1))
    (hq : q.cells.size = q.nodes * (q.horizon + 1))
    (hcells : ∀ time ≤ p.horizon, ∀ node < p.nodes, p.cell time node = q.cell time node) :
    p = q := by
  have hsize : p.cells.size = q.cells.size := by rw [hp, hq, hnodes, hhorizon]
  have harray : p.cells = q.cells := by
    apply Array.ext hsize
    intro at_ hin hin'
    obtain ⟨time, node, htime, hnode, hplace⟩ := p.exists_place_eq (hp ▸ hin)
    have hsame := hcells time htime node hnode
    have hplace' : q.place time node = at_ := by
      rw [← hplace, place, place, hnodes]
    rw [cell, cell, hplace, hplace', Array.getD_eq_getD_getElem?, Array.getD_eq_getD_getElem?,
      Array.getElem?_eq_getElem hin, Array.getElem?_eq_getElem hin'] at hsame
    exact hsame
  cases p
  cases q
  cases hnodes
  cases hhorizon
  cases harray
  rfl

/-- A table whose cells say what the events of a schedule show is its replay. -/
theorem eq_table {p : Possession} {s : Schedule} (hcap : p.nodes ≤ NodeSet.capacity)
    (hsize : p.cells.size = p.nodes * (p.horizon + 1))
    (hcells : ∀ time ≤ p.horizon, ∀ node < p.nodes, ∀ result,
      (p.cell time node).contains result = true ↔ s.ShownBefore node result (time + 1)) :
    p = s.table p.nodes p.horizon := by
  have htable : (s.table p.nodes p.horizon).cells.size = p.nodes * (p.horizon + 1) :=
    Schedule.size_cells_table p.nodes p.horizon
  refine eq_of_cells (q := s.table p.nodes p.horizon) rfl rfl hsize htable ?_
  intro time htime node hnode
  rw [NodeSet.eq_iff_contains]
  intro result
  rw [hcells time htime node hnode, Schedule.contains_cell_table_iff hcap htime hnode]

end Possession

namespace Model

variable {m : Model} {s : Schedule} {p : Possession}

/-! ## The rules determine the cells -/

theorem Satisfies.timeOf_eq_some_iff (h : m.Satisfies s p .taskExecution) {node time : Nat} :
    s.timeOf node = some time ↔ ⟨node, time⟩ ∈ s.executions :=
  Schedule.timeOf_eq_some_iff (Schedule.countP_le_one h.2 (fun e he => (h.1 e he).1) node)

/-- What the rule on initialization says of row 0, and the rule on propagation of
each row after it, the events show.  The induction is on the time. -/
theorem contains_cell_iff_shownBefore (hexec : m.Satisfies s p .taskExecution)
    (hstart : m.Satisfies s p .initialization) (hnext : m.Satisfies s p .propagation)
    {time node : Nat} (htime : time ≤ m.horizon) (hnode : node < m.chain.nodes) (result : Nat) :
    (p.cell time node).contains result = true ↔ s.ShownBefore node result (time + 1) := by
  have hown : ∀ now, (∃ e ∈ s.executions, e.node = node ∧ e.time = now) ↔
      s.timeOf node = some now := by
    intro now
    rw [hexec.timeOf_eq_some_iff]
    constructor
    · rintro ⟨e, he, rfl, rfl⟩
      exact he
    · intro he
      exact ⟨_, he, rfl, rfl⟩
  induction time with
  | zero =>
      have hnothing : ¬ s.ShownBefore node result 0 := by
        rintro (⟨_, e, _, _, hlt⟩ | ⟨a, _, _, hlt, _⟩) <;> omega
      have hnobody : ¬ ∃ a ∈ s.messages, a.receiver = node ∧ a.time + 1 = 0 ∧
          a.payload.contains result = true := by
        rintro ⟨a, _, _, hlt, _⟩
        omega
      have hinner : s.timeOf node = some 0 → m.chain.isInner node = true := fun hfirst =>
        (hexec.1 _ (hexec.timeOf_eq_some_iff.1 hfirst)).1
      rw [hstart node hnode, Schedule.shownBefore_succ_iff, or_iff_right hnothing,
        or_iff_right hnobody, hown]
      constructor
      · exact And.right
      · exact fun hboth => ⟨hinner hboth.2, hboth⟩
  | succ time ih =>
      have hbefore := ih (Nat.le_of_lt htime)
      rw [hnext time htime node hnode, Schedule.shownBefore_succ_iff node result (time + 1), hown]
      simp only [Nat.add_right_cancel_iff]
      exact or_congr_left hbefore

/-- So a table that passes the rules, with just the cells that its size
announces, is the replay. -/
theorem eq_table_of_satisfies (hm : m.WellFormed) (hnodes : p.nodes = m.nodes)
    (hhorizon : p.horizon = m.horizon) (hsize : p.cells.size = p.nodes * (p.horizon + 1))
    (h : ∀ rule ∈ RuleBank.standard.rules, m.Satisfies s p rule) :
    p = s.table m.nodes m.horizon := by
  rw [← hnodes, ← hhorizon]
  apply Possession.eq_table (hnodes ▸ hm.le_capacity) hsize
  rw [hnodes, hhorizon]
  intro time htime node hnode result
  exact contains_cell_iff_shownBefore (h .taskExecution (by decide)) (h .initialization (by decide))
    (h .propagation (by decide)) htime hnode result

/-- A table of another size does not pass. -/
theorem size_eq_of_judge_eq_nil (h : m.judge s p = .ok []) :
    p.nodes = m.nodes ∧ p.horizon = m.horizon := by
  unfold judge at h
  split at h
  · assumption
  · obtain ⟨rows, _, h⟩ := bind_eq_ok.1 h
    obtain ⟨modelRows, _, h⟩ := bind_eq_ok.1 h
    cases h

end Model

/-- A table that is claimed for a schedule, with just the cells that its size
announces, passes the judge of a built model under the standard bank exactly if
it is the replay of the schedule and the schedule is valid. -/
theorem judge_eq_nil_iff {p : Problem} {m : Model} (h : p.model .standard = .ok m) (s : Schedule)
    (claimed : Possession) (hsize : claimed.cells.size = claimed.nodes * (claimed.horizon + 1)) :
    m.judge s claimed = .ok [] ↔ m.replay s = .ok claimed ∧ m.verdict s = .ok [] := by
  have hm := wellFormed_of_model h
  have hreplay := Model.replay_eq hm (storable_of_model h) s
  constructor
  · intro hjudge
    obtain ⟨hnodes, hhorizon⟩ := Model.size_eq_of_judge_eq_nil hjudge
    have hcovers : m.Covers claimed :=
      { nodes_eq := hnodes
        horizon_eq := hhorizon
        size_le := by rw [hsize, hnodes, hhorizon]; exact Nat.le_refl _ }
    have hrules := (Model.reports_judge hm hcovers s).eq_nil_iff.1 hjudge
    rw [bank_of_model h] at hrules
    have htable := Model.eq_table_of_satisfies hm hnodes hhorizon hsize hrules
    rw [← htable] at hreplay
    refine ⟨hreplay, ?_⟩
    rw [Model.verdict, hreplay]
    exact hjudge
  · rintro ⟨hclaimed, hverdict⟩
    rw [Model.verdict, hclaimed] at hverdict
    exact hverdict

/-- The replay of the meeting passes. -/
theorem meetingTable_passes :
    meeting.model .standard = .ok meetingModel ∧
      (meetingSchedule.table 5 3).cells.size = 5 * (3 + 1) ∧
      meetingModel.judge meetingSchedule (meetingSchedule.table 5 3) = .ok [] :=
  have hbuilt : meeting.model .standard = .ok meetingModel := rfl
  have hsize : (meetingSchedule.table 5 3).cells.size = 5 * (3 + 1) := rfl
  ⟨hbuilt, hsize, (judge_eq_nil_iff hbuilt meetingSchedule _ hsize).2 ⟨rfl, rfl⟩⟩

end ChainPropagation
