import ChainPropagation.Proofs.Possession
import ChainPropagation.Proofs.Recording

/-!
# The replay, access by access

`Model.replay` says outright which events show at which time.  Whoever computes it
goes through the events once, files each under its time, and then goes through the
times with one row in hand.  That takes many accesses to lists and arrays, at places
that the events name: each of them could miss.  Ahead of each there is a guard, which
leaves out the events that would.

Here the replay is written down that way, with every access checked
(`Model.stepwiseReplay`), and the guards are shown to be enough: on a well-formed model
no access misses, no time after an arrival is too large to be a number, and every id
that is inserted fits into a set.  What comes out is the replay
(`stepwiseReplay_eq`).

All loops of this kind are one definition, `tally`: a walk through a list that changes
one entry of an array for each item that the guard admits.  `fills_tally` says when no
access of it misses, what the entries are in the end, and that they are there for those
who look at them later.
-/

namespace ChainPropagation

/-! ## Arrays at places that are given from outside -/

/-- Goes through a list and changes one entry of an array for each item that is
admitted. -/
def tally {α β : Type} (admitted : α → Bool) (place : α → Checked Nat)
    (change : α → β → Checked β) (items : List α) (entries : Array β) : Checked (Array β) :=
  items.foldlM (fun entries a =>
    if admitted a then do amend entries (← place a) (change a) else return entries) entries

/-- Goes through a list and files what is admitted of it in `count` lists. -/
def file {α β : Type} (admitted : α → Bool) (place : α → Checked Nat) (view : α → β)
    (items : List α) (count : Nat) : Checked (Array (List β)) :=
  tally admitted place (fun a filed => .ok (filed ++ [view a])) items (Array.replicate count [])

section

variable {α β : Type}

/-- No access of a walk misses if what is admitted has its place in the array. -/
theorem tally_eq (target : α → Nat) (next : α → β → β) {admitted : α → Bool}
    {place : α → Checked Nat} {change : α → β → Checked β} {items : List α} {entries : Array β}
    (h : ∀ a ∈ items, admitted a = true → place a = .ok (target a) ∧
      target a < entries.size ∧ ∀ b, change a b = .ok (next a b)) :
    tally admitted place change items entries = .ok ((items.filter admitted).foldl
      (fun entries a => entries.modify (target a) (next a)) entries) := by
  induction items generalizing entries with
  | nil => rfl
  | cons a items ih =>
      have hrest := fun b hb => h b (List.mem_cons_of_mem a hb)
      rw [tally, List.foldlM_cons]
      by_cases hin : admitted a = true
      · obtain ⟨hplace, hsize, hchange⟩ := h a (List.mem_cons_self ..) hin
        rw [if_pos hin, hplace, ok_bind, amend_eq hsize hchange, ok_bind,
          List.filter_cons_of_pos hin, List.foldl_cons]
        apply ih
        rw [Array.size_modify]
        exact hrest
      · rw [if_neg hin, List.filter_cons_of_neg hin]
        exact ih hrest

/-- An entry after a walk: what it was, changed by the items whose place it is. -/
theorem getD_tallied (target : α → Nat) (next : α → β → β) (items : List α) (entries : Array β)
    {index : Nat} (d : β) (h : index < entries.size) :
    (items.foldl (fun entries a => entries.modify (target a) (next a)) entries).getD index d =
      (items.filter (target · == index)).foldl (fun b a => next a b) (entries.getD index d) := by
  induction items generalizing entries with
  | nil => rfl
  | cons a items ih =>
      rw [List.foldl_cons, ih _ (by rwa [Array.size_modify]), getD_modify _ _ _ _ _ h]
      by_cases hat : target a = index
      · have hin : (target a == index) = true := beq_iff_eq.2 hat
        rw [if_pos hat, List.filter_cons_of_pos (p := (target · == index)) hin, List.foldl_cons]
      · have hout : ¬ (target a == index) = true := fun hin => hat (beq_iff_eq.1 hin)
        rw [if_neg hat, List.filter_cons_of_neg (p := (target · == index)) hout]

/-- An array that is made without a fault, so that none of its first `count` entries is
missed later; and what these are. -/
def Fills (filling : Checked (Array β)) (count : Nat) (content : Nat → β) : Prop :=
  ∃ entries, filling = .ok entries ∧ ∀ index < count, entry entries index = .ok (content index)

theorem Fills.congr {filling : Checked (Array β)} {count : Nat} {content content' : Nat → β}
    (h : Fills filling count content) (hsame : ∀ index < count, content index = content' index) :
    Fills filling count content' := by
  obtain ⟨entries, hfilling, hentries⟩ := h
  exact ⟨entries, hfilling, fun index hindex => hsame index hindex ▸ hentries index hindex⟩

/-- A walk that starts with equal entries: what is admitted has its place among them. -/
theorem fills_tally (target : α → Nat) (next : α → β → β) {admitted : α → Bool}
    {place : α → Checked Nat} {change : α → β → Checked β} {items : List α} {count : Nat}
    {blank : β} (h : ∀ a ∈ items, admitted a = true → place a = .ok (target a) ∧
      target a < count ∧ ∀ b, change a b = .ok (next a b)) :
    Fills (tally admitted place change items (Array.replicate count blank)) count fun index =>
      (items.filter fun a => target a == index && admitted a).foldl (fun b a => next a b)
        blank := by
  have hsize : (Array.replicate count blank).size = count := Array.size_replicate
  refine ⟨_, tally_eq target next fun a ha hadmitted => ?_, fun index hindex => ?_⟩
  · rw [hsize]
    exact h a ha hadmitted
  · have hin : index < (Array.replicate count blank).size := hsize.symm ▸ hindex
    have hblank : (Array.replicate count blank).getD index blank = blank := by
      rw [Array.getD_eq_getD_getElem?, Array.getElem?_replicate]
      split <;> rfl
    rw [entry_eq blank (by rw [size_foldl_modify]; exact hin),
      getD_tallied target next _ _ blank hin, hblank, List.filter_filter]

/-- What is filed in one of the lists, in the order of the items. -/
theorem fills_file (target : α → Nat) (view : α → β) {admitted : α → Bool}
    {place : α → Checked Nat} {items : List α} {count : Nat}
    (h : ∀ a ∈ items, admitted a = true → place a = .ok (target a) ∧ target a < count) :
    Fills (file admitted place view items count) count fun index =>
      (items.filter fun a => target a == index && admitted a).map view := by
  refine (fills_tally target (fun a filed => filed ++ [view a])
    fun a ha hadmitted => ⟨(h a ha hadmitted).1, (h a ha hadmitted).2, fun _ => rfl⟩).congr ?_
  intro index _
  rw [List.foldl_append_eq_append, List.nil_append, ← List.flatMap_def, ← List.map_eq_flatMap]

end

/-! ## The computation -/

namespace Model

variable (m : Model) (s : Schedule)

/-- Whether a message shows in the replay: its receiver is in the chain and it arrives
by the horizon. -/
def arrives (a : Message) : Bool := a.receiver < m.nodes && a.time < m.horizon

/-- The nodes that execute, filed under the times at which they do. -/
def filedExecutions : Checked (Array (List Nat)) :=
  file m.counts (fun e => .ok e.time) Execution.node s.executions (m.horizon + 1)

/-- The messages filed under the times at which they are there. -/
def filedMessages : Checked (Array (List Message)) :=
  file m.arrives Message.arrivalTime (fun a => a) s.messages (m.horizon + 1)

end Model

/-- A row after the messages that are there at its time, and the nodes that execute
then. -/
def stepwiseRow (due : List Message) (executing : List Nat) (row : Array NodeSet) :
    Checked (Array NodeSet) := do
  let told ← tally (fun _ => true) (fun a => .ok a.receiver)
    (fun a held => .ok (held ∪ a.payload)) due row
  tally (fun _ => true) .ok (fun node held => held.add node) executing told

/-- Writes `count` rows into a table, the first one for `time`, after `row`. -/
def stepwiseRows (due : Array (List Message)) (executing : Array (List Nat)) :
    (count time : Nat) → Array NodeSet → Possession → Checked Possession
  | 0, _, _, p => .ok p
  | count + 1, time, row, p => do
    let row ← stepwiseRow (← entry due time) (← entry executing time) row
    stepwiseRows due executing count (time + 1) row (← p.writeRowChecked time row.toList)

/-- The replay with every access checked. -/
def Model.stepwiseReplay (m : Model) (s : Schedule) : Checked Possession := do
  let blank ← Possession.blank m.nodes m.horizon
  storing (3 * (m.horizon + 1))
  let executing ← m.filedExecutions s
  let due ← m.filedMessages s
  stepwiseRows due executing (m.horizon + 1) 0 (Array.replicate m.nodes ∅) blank

/-! ## No access misses -/

namespace Model

variable {m : Model} {s : Schedule}

theorem fills_filedExecutions (m : Model) (s : Schedule) :
    Fills (m.filedExecutions s) (m.horizon + 1) fun time =>
      (s.executions.filter fun e => e.node < m.nodes && e.time == time).map Execution.node := by
  refine Fills.congr (fills_file Execution.time Execution.node ?_) ?_
  · intro e _ hcounts
    simp only [counts, Bool.and_eq_true, decide_eq_true_eq] at hcounts
    exact ⟨rfl, Nat.lt_succ_of_le hcounts.2⟩
  · intro time htime
    have hsame : ∀ e : Execution,
        (e.time == time && m.counts e) = (decide (e.node < m.nodes) && e.time == time) := by
      intro e
      rw [counts, Bool.eq_iff_iff]
      simp only [Bool.and_eq_true, beq_iff_eq, decide_eq_true_eq]
      omega
    simp only [hsame]

/-- No time after an arrival is too large to be a number. -/
theorem fills_filedMessages (hs : m.Storable) (s : Schedule) :
    Fills (m.filedMessages s) (m.horizon + 1) fun time =>
      s.messages.filter fun a => a.receiver < m.nodes && a.time + 1 == time := by
  refine Fills.congr (fills_file (fun a : Message => a.time + 1) (fun a => a) ?_) ?_
  · intro a _ harrives
    simp only [arrives, Bool.and_eq_true, decide_eq_true_eq] at harrives
    exact ⟨hs.fitting_eq (by omega), by omega⟩
  · intro time htime
    have hsame : ∀ a : Message, (a.time + 1 == time && m.arrives a) =
        (decide (a.receiver < m.nodes) && a.time + 1 == time) := by
      intro a
      rw [arrives, Bool.eq_iff_iff]
      simp only [Bool.and_eq_true, beq_iff_eq, decide_eq_true_eq]
      omega
    rw [List.map_id']
    simp only [hsame]

/-- A row that is carried along gets the events of its time. -/
theorem stepwiseRow_eq (hm : m.WellFormed) {row : Array NodeSet} (hrow : row.size = m.nodes)
    (time : Nat) :
    stepwiseRow (s.messages.filter fun a => a.receiver < m.nodes && a.time + 1 == time)
      ((s.executions.filter fun e => e.node < m.nodes && e.time == time).map Execution.node) row =
      .ok (s.rowAfter m.nodes time row) := by
  have hcap := hm.le_capacity
  have htold : tally (fun _ => true) (fun a => .ok a.receiver)
      (fun a held => .ok (held ∪ a.payload))
      (s.messages.filter fun a => a.receiver < m.nodes && a.time + 1 == time) row =
        .ok (s.deliver m.nodes time row) := by
    rw [tally_eq Message.receiver fun a held => held ∪ a.payload, List.filter_true]
    · rfl
    · intro a ha _
      have hdue := (List.mem_filter.1 ha).2
      simp only [Bool.and_eq_true, decide_eq_true_eq] at hdue
      exact ⟨rfl, hrow ▸ hdue.1, fun _ => rfl⟩
  -- only nodes of the chain are filed, and their ids fit into a set
  rw [stepwiseRow, htold, ok_bind, tally_eq (fun node => node) fun node held => held.insert node,
    List.filter_true, List.foldl_map]
  · rfl
  · intro node hnode _
    obtain ⟨e, he, rfl⟩ := List.mem_map.1 hnode
    have hdue := (List.mem_filter.1 he).2
    simp only [Bool.and_eq_true, decide_eq_true_eq] at hdue
    have hsize : e.node < (s.deliver m.nodes time row).size := by
      rw [Schedule.size_deliver, hrow]
      exact hdue.1
    have hfits : e.node < NodeSet.capacity := Nat.lt_of_lt_of_le hdue.1 hcap
    exact ⟨rfl, hsize, fun held => if_pos hfits⟩

/-- What is filed under each time are the events of that time. -/
structure Filed (m : Model) (s : Schedule) (due : Array (List Message))
    (executing : Array (List Nat)) : Prop where
  entry_due : ∀ time < m.horizon + 1, entry due time =
    .ok (s.messages.filter fun a => a.receiver < m.nodes && a.time + 1 == time)
  entry_executing : ∀ time < m.horizon + 1, entry executing time =
    .ok ((s.executions.filter fun e => e.node < m.nodes && e.time == time).map Execution.node)

/-- A table of which the rows before a time have been written. -/
structure WrittenBefore (m : Model) (s : Schedule) (now : Nat) (p : Possession) : Prop where
  covers : m.Covers p
  size_cells : p.cells.size = m.nodes * (m.horizon + 1)
  contains_cell : ∀ time < now, time ≤ m.horizon → ∀ node < m.nodes, ∀ result,
    (p.cell time node).contains result = true ↔ s.ShownBefore node result (time + 1)

namespace WrittenBefore

variable {now : Nat} {p : Possession} {row : Array NodeSet}

theorem blank : WrittenBefore m s 0
    ⟨m.nodes, m.horizon, Array.replicate (m.nodes * (m.horizon + 1)) ∅⟩ where
  covers :=
    { nodes_eq := rfl
      horizon_eq := rfl
      size_le := Nat.le_of_eq Array.size_replicate.symm }
  size_cells := Array.size_replicate
  contains_cell time hbefore := absurd hbefore (Nat.not_lt_zero time)

/-- There is room for the row of a time. -/
theorem writeRowChecked_eq (h : WrittenBefore m s now p) (hnow : now ≤ m.horizon)
    (hrow : row.size = m.nodes) :
    p.writeRowChecked now row.toList = .ok (p.writeRow now row.toList) := by
  have hend : p.place (now + 1) 0 ≤ p.cells.size := by
    rw [Possession.place, h.covers.nodes_eq, h.size_cells, nodes_eq, Nat.add_zero, Nat.mul_comm]
    exact Nat.mul_le_mul_left _ (Nat.succ_le_succ hnow)
  have hlength : row.toList.length = p.nodes := by
    rw [Array.length_toList, hrow, h.covers.nodes_eq, nodes_eq]
  exact if_pos ⟨hend, hlength⟩

theorem writeRow (h : WrittenBefore m s now p) (hrow : s.RowBefore m.nodes (now + 1) row) :
    WrittenBefore m s (now + 1) (p.writeRow now row.toList) where
  covers := h.covers.writeRow now row.toList
  size_cells := (Possession.size_splice _ _ _).trans h.size_cells
  contains_cell time hbefore htime node hnode result := by
    have hlength : row.toList.length = p.nodes := by
      rw [Array.length_toList, hrow.size_eq, h.covers.nodes_eq, nodes_eq]
    rw [Possession.cell_writeRow now hlength (h.covers.nodes_eq.symm ▸ hnode)
      (h.covers.place_lt htime hnode)]
    by_cases hat : time = now
    · rw [if_pos hat, hat, getD_toList]
      exact hrow.contains_iff node hnode result
    · rw [if_neg hat]
      exact h.contains_cell time (by omega) htime node hnode result

end WrittenBefore

/-- Row after row is written.  The induction is on the number of rows to come; what is
carried along says what the events before its time show. -/
theorem Filed.stepwiseRows_eq {due : Array (List Message)} {executing : Array (List Nat)}
    (h : Filed m s due executing) (hm : m.WellFormed) (count : Nat) :
    ∀ (time : Nat) (row : Array NodeSet) (p : Possession), time + count = m.horizon + 1 →
      s.RowBefore m.nodes time row → WrittenBefore m s time p →
      ∃ q, stepwiseRows due executing count time row p = .ok q ∧
        WrittenBefore m s (m.horizon + 1) q := by
  induction count with
  | zero =>
      intro time row p hall _ hp
      exact ⟨p, rfl, hall ▸ hp⟩
  | succ count ih =>
      intro time row p hall hrow hp
      have htime : time < m.horizon + 1 := by omega
      have hnext := hrow.rowAfter hm.le_capacity
      have hle := Nat.le_of_lt_succ htime
      obtain ⟨q, hq, hwritten⟩ := ih (time + 1) _ _ (by omega) hnext (hp.writeRow hnext)
      refine ⟨q, ?_, hwritten⟩
      rw [stepwiseRows, h.entry_due time htime, ok_bind, h.entry_executing time htime, ok_bind,
        stepwiseRow_eq hm hrow.size_eq, ok_bind, hp.writeRowChecked_eq hle hnext.size_eq, ok_bind]
      exact hq

/-- On a well-formed model no access misses, and the replay comes out. -/
theorem stepwiseReplay_eq (hm : m.WellFormed) (hs : m.Storable) (s : Schedule) :
    m.stepwiseReplay s = m.replay s := by
  obtain ⟨executing, hexecutions, hexecuting⟩ := fills_filedExecutions m s
  obtain ⟨due, hmessages, hdue⟩ := fills_filedMessages hs s
  have hfiled : Filed m s due executing := ⟨hdue, hexecuting⟩
  obtain ⟨p, hp, hwritten⟩ := hfiled.stepwiseRows_eq hm (m.horizon + 1) 0 _ _ (Nat.zero_add _)
    Schedule.rowBefore_zero .blank
  have htable : p = s.table p.nodes p.horizon := by
    apply Possession.eq_table
    · rw [hwritten.covers.nodes_eq]
      exact hm.le_capacity
    · rw [hwritten.size_cells, hwritten.covers.nodes_eq, hwritten.covers.horizon_eq, nodes_eq]
    · rw [hwritten.covers.nodes_eq, hwritten.covers.horizon_eq]
      exact fun time htime => hwritten.contains_cell time (Nat.lt_succ_of_le htime) htime
  rw [hwritten.covers.nodes_eq, hwritten.covers.horizon_eq] at htable
  rw [stepwiseReplay, blank_eq_ok hs, ok_bind, storing_of_lt hs.times, ok_bind, hexecutions,
    ok_bind, hmessages, ok_bind, hp, replay_eq hm hs, htable, nodes_eq]

end Model

end ChainPropagation
