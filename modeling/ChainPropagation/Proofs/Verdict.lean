import ChainPropagation.Proofs.Lawful
import ChainPropagation.Proofs.Replay

/-!
# What the verdict says

Each rule of the bank comes down to a statement about the events and the table
(`Model.Satisfies`): on a well-formed model, with a table that has all its
cells, the check of a rule meets no fault and reports nothing exactly if that
statement holds (`reports_breachesOf`).  With the replayed table the statements
of the standard rules together say that the schedule is lawful.

The replay takes payloads at their word, and the send rule judges them
afterwards by the very table that they helped to make.  This is not circular: a
payload is judged by the row of the time when it was sent, which only messages
from before have touched, so that by induction on time every cell of the table
is held (`holds_iff_contains`).

## Main results

* `verdict_eq_nil_iff_lawful` — the verdict of the standard bank is empty
  exactly on the lawful schedules.
* `verdict_eq_nil_of_lawful` — no rule whatsoever objects to a lawful schedule.
-/

namespace ChainPropagation

/-! ## Checks that report -/

/-- A check that meets no fault, and finds nothing exactly if all is fine. -/
def Reports (check : Checked (List Breach)) (fine : Prop) : Prop :=
  ∃ breaches, check = .ok breaches ∧ (breaches = [] ↔ fine)

namespace Reports

theorem eq_nil_iff {check : Checked (List Breach)} {fine : Prop} (h : Reports check fine) :
    check = .ok [] ↔ fine := by
  obtain ⟨breaches, rfl, hfine⟩ := h
  rw [← hfine]
  constructor
  · intro heq
    injection heq
  · intro heq
    rw [heq]

/-- Several checks, one after another. -/
theorem mapM_flatten {α : Type} {check : α → Checked (List Breach)} {fine : α → Prop}
    {entries : List α} (h : ∀ a ∈ entries, Reports (check a) (fine a)) :
    Reports (do return (← entries.mapM check).flatten) (∀ a ∈ entries, fine a) := by
  induction entries with
  | nil => exact ⟨[], rfl, by simp⟩
  | cons a entries ih =>
      obtain ⟨own, hown, hfine⟩ := h a (by simp)
      obtain ⟨others, hothers, hrest⟩ := ih fun b hb => h b (by simp [hb])
      obtain ⟨lists, hlists, hflat⟩ := bind_eq_ok.1 hothers
      cases hflat
      refine ⟨own ++ lists.flatten, ?_, ?_⟩
      · rw [List.mapM_cons, hown, hlists]
        rfl
      · rw [List.append_eq_nil_iff, hfine, hrest]
        simp

end Reports

namespace Model

variable {m : Model} {s : Schedule} {p : Possession}

/-! ## Tables -/

/-- A table of the size of the model, with all its cells. -/
structure Covers (m : Model) (p : Possession) : Prop where
  nodes_eq : p.nodes = m.chain.nodes
  horizon_eq : p.horizon = m.horizon
  size_le : m.chain.nodes * (m.horizon + 1) ≤ p.cells.size

theorem covers_table (s : Schedule) : m.Covers (s.table m.nodes m.horizon) where
  nodes_eq := rfl
  horizon_eq := rfl
  size_le := Nat.le_of_eq (Schedule.size_cells_table _ _).symm

/-- The place of a cell is in the table. -/
theorem Covers.place_lt (h : m.Covers p) {time node : Nat} (htime : time ≤ m.horizon)
    (hnode : node < m.chain.nodes) : p.place time node < p.cells.size := by
  have hrows := Nat.mul_le_mul_right m.chain.nodes (Nat.add_le_add_right htime 1)
  have hsize := h.size_le
  rw [Nat.mul_comm] at hsize
  rw [Possession.place, h.nodes_eq]
  rw [Nat.succ_mul] at hrows
  omega

theorem Covers.read_eq (h : m.Covers p) {time node : Nat} (htime : time ≤ m.horizon)
    (hnode : node < m.chain.nodes) : p.read time node = .ok (p.cell time node) := by
  rw [Possession.read, Possession.cell, Array.getD_eq_getD_getElem?,
    Array.getElem?_eq_getElem (h.place_lt htime hnode)]
  rfl

theorem Covers.tableCovers (h : m.Covers p) : m.tableCovers p = true :=
  decide_eq_true h.size_le

/-! ## What the rules ask for -/

/-- What a rule asks of a schedule and a table. -/
def Satisfies (m : Model) (s : Schedule) (p : Possession) : Rule → Prop
  | .taskExecution =>
    (∀ e ∈ s.executions, m.chain.isInner e.node = true ∧ e.time ≤ m.horizon) ∧
      ∀ node, m.chain.isInner node = true → s.executions.countP (·.node == node) = 1
  | .rankEnablement =>
    ∀ e ∈ s.executions, m.chain.isInner e.node = true → e.time ≤ m.horizon →
      (m.rank e.node = 0 → e.time = 0) ∧
      (m.rank e.node ≠ 0 → ∀ other, m.Waits e.node other →
        (p.cell e.time e.node).contains other = true)
  | .propagation =>
    ∀ time < m.horizon, ∀ node < m.chain.nodes, ∀ result,
      (p.cell (time + 1) node).contains result = true ↔
        (p.cell time node).contains result = true ∨
        (∃ a ∈ s.messages, a.receiver = node ∧ a.time = time ∧
          a.payload.contains result = true) ∨
        (node = result ∧ s.timeOf node = some (time + 1))
  | .selfResult =>
    ∀ time ≤ m.horizon, ∀ node < m.chain.nodes,
      (∀ result, (p.cell time node).contains result = true →
        m.chain.isInner result = true) ∧
      (m.chain.isInner node = true →
        ((p.cell time node).contains node = true ↔ ∃ e, s.timeOf node = some e ∧ e ≤ time))
  | .initialization =>
    ∀ node < m.chain.nodes, ∀ result, (p.cell 0 node).contains result = true ↔
      m.chain.isInner node = true ∧ node = result ∧ s.timeOf node = some 0
  | .boundaryCompleteness =>
    ∀ result, m.chain.isInner result = true →
      (p.cell m.horizon 0).contains result = true ∧
        (p.cell m.horizon m.chain.farEnd).contains result = true
  | .sendFeasibility =>
    (s.messages.map Message.slot).Nodup ∧ ∀ a ∈ s.messages,
      (∃ result, a.payload.contains result = true) ∧
      (∀ result, a.payload.contains result = true → m.chain.isInner result = true) ∧
      a.time ≤ m.horizon ∧
      (a.sender < m.chain.nodes → ∀ result, a.payload.contains result = true →
        (p.cell a.time a.sender).contains result = true)
  | .adjacency => ∀ a ∈ s.messages, m.chain.sideBySide a.sender a.receiver = true
  | .rankZeroAnnounce =>
    ∀ node < m.chain.nodes, m.rank node = 0 →
      (∃ other ∈ m.chain.beside node, 0 < m.rank other) →
      ∃ a ∈ s.messages, a.sender = node ∧ a.receiver ∈ m.chain.beside node ∧
        0 < m.rank a.receiver

/-! ## Who executes when -/

theorem storing_nodes (hm : m.WellFormed) (words : Nat) (h : words ≤ 2 * m.nodes) :
    storing words = .ok () := by
  have hcap : m.nodes ≤ 64 := hm.le_capacity
  apply storing_of_lt
  unfold storageLimit
  omega

theorem executionBreaches_eq_nil_iff (hm : m.WellFormed) (e : Execution) :
    m.executionBreaches e = [] ↔ m.chain.isInner e.node = true ∧ e.time ≤ m.horizon := by
  have htwo := hm.two_le
  rw [executionBreaches, nodes_eq, Chain.farEnd, Chain.isInner_iff]
  split
  · simp
    omega
  · rw [List.append_eq_nil_iff]
    apply and_congr
    · split
      · simp
        omega
      · simp
        omega
    · split
      · simp
        omega
      · simp
        omega

theorem taskBreaches_eq (hm : m.WellFormed) (s : Schedule) : m.taskBreaches s =
    .ok (s.executions.flatMap m.executionBreaches ++ m.chain.inner.filterMap (countBreach s)) := by
  rw [taskBreaches, storing_nodes hm _ (by omega), Chain.innerChecked_eq hm.two_le]
  rfl

theorem reports_taskBreaches (hm : m.WellFormed) (s : Schedule) (p : Possession) :
    Reports (m.taskBreaches s) (m.Satisfies s p .taskExecution) := by
  refine ⟨_, taskBreaches_eq hm s, ?_⟩
  rw [List.append_eq_nil_iff, List.flatMap_eq_nil_iff, List.filterMap_eq_nil_iff]
  refine and_congr (forall₂_congr fun e _ => executionBreaches_eq_nil_iff hm e) ?_
  apply forall_congr'
  intro node
  rw [Chain.mem_inner]
  apply imp_congr_right
  intro _
  simp [countBreach]

theorem reports_enablementBreach (hm : m.WellFormed) (hp : m.Covers p) (e : Execution) :
    Reports (m.enablementBreach p e)
      (m.chain.isInner e.node = true → e.time ≤ m.horizon →
        (m.rank e.node = 0 → e.time = 0) ∧
        (m.rank e.node ≠ 0 → ∀ other, m.Waits e.node other →
          (p.cell e.time e.node).contains other = true)) := by
  rw [enablementBreach, Chain.isInnerChecked_eq hm.two_le]
  by_cases hskip : (!m.chain.isInner e.node || decide (m.horizon < e.time)) = true
  · refine ⟨[], by simp only [bind, Except.bind]; rw [if_pos hskip]; rfl, ?_⟩
    simp only [Bool.or_eq_true, Bool.not_eq_true', decide_eq_true_eq] at hskip
    apply iff_of_true rfl
    intro hinner hle
    rcases hskip with hskip | hskip
    · rw [hinner] at hskip
      cases hskip
    · omega
  · have hinner : m.chain.isInner e.node = true ∧ e.time ≤ m.horizon := by
      simpa using hskip
    have hlt : e.node < m.chain.nodes := Chain.lt_of_isInner hinner.1
    by_cases hrank : m.rank e.node = 0
    · refine ⟨if e.time = 0 then [] else [.rankZeroLate e.node e.time], ?_, ?_⟩
      · simp only [bind, Except.bind]
        rw [if_neg hskip, hm.rankOf_eq hlt]
        simp only [hrank, if_true]
        split <;> rfl
      · simp [hinner, hrank]
    · refine ⟨if (m.awaited e.node \ p.cell e.time e.node).isEmpty then []
        else [.missingResults e.node e.time (m.awaited e.node \ p.cell e.time e.node)], ?_, ?_⟩
      · simp only [bind, Except.bind]
        rw [if_neg hskip, hm.rankOf_eq hlt, hm.awaitedBy_eq hlt, hp.read_eq hinner.2 hlt]
        simp only [hrank, if_false]
        split <;> rfl
      · have hsubset : (m.awaited e.node \ p.cell e.time e.node).isEmpty = true ↔
            ∀ other, m.Waits e.node other → (p.cell e.time e.node).contains other = true :=
          hm.awaited_isSubset_iff hlt
        simp [hinner, hrank, ← hsubset]

theorem reports_enablementBreaches (hm : m.WellFormed) (hp : m.Covers p) (s : Schedule) :
    Reports (m.enablementBreaches s p) (m.Satisfies s p .rankEnablement) :=
  Reports.mapM_flatten fun e _ => reports_enablementBreach hm hp e

/-! ## Who holds what -/

theorem getD_firstTimes {node : Nat} (h : node < m.chain.nodes) :
    (m.firstTimes s).getD node none = s.timeOf node := by
  simp [firstTimes, h]

/-- All ids of a well-formed chain fit into a set. -/
theorem oversized_eq_none (hm : m.WellFormed) (low high : Nat) :
    m.oversized? s low high = none := by
  have hcap := hm.le_capacity
  rw [oversized?, nodes_eq, show m.chain.nodes - NodeSet.capacity = 0 by omega]
  rfl

theorem contains_foldl_union (sent : List Message) (set : NodeSet) (result : Nat) :
    (sent.foldl (fun set a => set ∪ a.payload) set).contains result = true ↔
      set.contains result = true ∨ ∃ a ∈ sent, a.payload.contains result = true := by
  induction sent generalizing set with
  | nil => simp
  | cons a sent ih =>
      rw [List.foldl_cons, ih]
      simp [or_assoc]

theorem contains_expectedNext (hm : m.WellFormed) {time node : Nat}
    (hnode : node < m.chain.nodes) (result : Nat) :
    (expectedNext p (m.firstTimes s) (s.sentAt time) time node).contains result = true ↔
      (p.cell time node).contains result = true ∨
        (∃ a ∈ s.messages, a.receiver = node ∧ a.time = time ∧
          a.payload.contains result = true) ∨
        (node = result ∧ s.timeOf node = some (time + 1)) := by
  have hcap := hm.le_capacity
  have hreceived : (∃ a ∈ (s.sentAt time).filter (·.receiver == node),
      a.payload.contains result = true) ↔
      ∃ a ∈ s.messages, a.receiver = node ∧ a.time = time ∧
        a.payload.contains result = true := by
    simp only [Schedule.sentAt, List.mem_filter, beq_iff_eq]
    constructor
    · rintro ⟨a, ⟨⟨ha, htime⟩, hto⟩, hcarries⟩
      exact ⟨a, ha, hto, htime, hcarries⟩
    · rintro ⟨a, ha, hto, htime, hcarries⟩
      exact ⟨a, ⟨⟨ha, htime⟩, hto⟩, hcarries⟩
  rw [expectedNext, getD_firstTimes hnode]
  split
  · rename_i hnow
    rw [NodeSet.contains_insert, Bool.or_eq_true, contains_foldl_union, hreceived, or_assoc]
    apply or_congr_right
    apply or_congr_right
    rw [decide_eq_true_eq]
    constructor
    · exact fun hown => ⟨hown.1, hnow⟩
    · exact fun hown => ⟨hown.1, by omega⟩
  · rename_i hnow
    rw [contains_foldl_union, hreceived]
    simp [hnow]

theorem propagationBreachesAt_eq_nil_iff (hm : m.WellFormed) (s : Schedule) (p : Possession)
    (time : Nat) : m.propagationBreachesAt s p (m.firstTimes s) time = [] ↔
      ∀ node < m.chain.nodes, ∀ result, (p.cell (time + 1) node).contains result = true ↔
        (p.cell time node).contains result = true ∨
        (∃ a ∈ s.messages, a.receiver = node ∧ a.time = time ∧
          a.payload.contains result = true) ∨
        (node = result ∧ s.timeOf node = some (time + 1)) := by
  rw [propagationBreachesAt, List.filterMap_eq_nil_iff]
  apply forall_congr'
  intro node
  rw [List.mem_range, nodes_eq]
  apply imp_congr_right
  intro hnode
  simp only [← contains_expectedNext hm hnode, ← NodeSet.eq_iff_contains]
  simp

theorem propagationBreaches_eq (hm : m.WellFormed) (hp : m.Covers p) (s : Schedule) :
    m.propagationBreaches s p = .ok ((List.range m.horizon).flatMap
      (m.propagationBreachesAt s p (m.firstTimes s))) := by
  rw [propagationBreaches, storing_nodes hm _ (Nat.le_refl _), hp.tableCovers,
    oversized_eq_none hm]
  by_cases hzero : m.horizon = 0
  · simp [hzero]
  · simp [hzero]

theorem reports_propagationBreaches (hm : m.WellFormed) (hp : m.Covers p) (s : Schedule) :
    Reports (m.propagationBreaches s p) (m.Satisfies s p .propagation) := by
  refine ⟨_, propagationBreaches_eq hm hp s, ?_⟩
  rw [List.flatMap_eq_nil_iff]
  apply forall_congr'
  intro time
  rw [List.mem_range, propagationBreachesAt_eq_nil_iff hm]

theorem cellBreaches_eq_nil_iff (hm : m.WellFormed) (s : Schedule) (p : Possession)
    {time node : Nat} (hnode : node < m.chain.nodes) :
    m.cellBreaches p m.chain.resultSet (m.firstTimes s) time node = [] ↔
      (∀ result, (p.cell time node).contains result = true →
        m.chain.isInner result = true) ∧
      (m.chain.isInner node = true →
        ((p.cell time node).contains node = true ↔ ∃ e, s.timeOf node = some e ∧ e ≤ time)) := by
  rw [cellBreaches, getD_firstTimes hnode, List.append_eq_nil_iff]
  apply and_congr
  · have hsubset : (p.cell time node \ m.chain.resultSet).isEmpty = true ↔
        ∀ result, (p.cell time node).contains result = true →
          m.chain.isInner result = true :=
      Chain.isSubset_resultSet_iff hm.le_capacity
    rw [← hsubset]
    simp
  · have hdone : (s.timeOf node).any (· ≤ time) = true ↔
        ∃ e, s.timeOf node = some e ∧ e ≤ time := by
      simp [Option.any_eq_true]
    rw [← hdone, ← Bool.eq_iff_iff]
    cases m.chain.isInner node <;> simp

theorem selfBreaches_eq (hm : m.WellFormed) (hp : m.Covers p) (s : Schedule) :
    m.selfBreaches s p = .ok ((List.range (m.horizon + 1)).flatMap fun time =>
      (List.range m.nodes).flatMap
        (m.cellBreaches p m.chain.resultSet (m.firstTimes s) time)) := by
  rw [selfBreaches, Chain.resultSetChecked_eq hm.two_le hm.le_capacity, hp.tableCovers]
  rfl

theorem reports_selfBreaches (hm : m.WellFormed) (hp : m.Covers p) (s : Schedule) :
    Reports (m.selfBreaches s p) (m.Satisfies s p .selfResult) := by
  refine ⟨_, selfBreaches_eq hm hp s, ?_⟩
  rw [List.flatMap_eq_nil_iff]
  apply forall_congr'
  intro time
  rw [List.mem_range, Nat.lt_succ_iff, List.flatMap_eq_nil_iff]
  apply imp_congr_right
  intro _
  apply forall_congr'
  intro node
  rw [List.mem_range, nodes_eq]
  exact imp_congr_right fun hnode => cellBreaches_eq_nil_iff hm s p hnode

theorem contains_expectedStart (hm : m.WellFormed) {node : Nat} (hnode : node < m.chain.nodes)
    (result : Nat) : (m.expectedStart s node).contains result = true ↔
      m.chain.isInner node = true ∧ node = result ∧ s.timeOf node = some 0 := by
  have hcap := hm.le_capacity
  unfold expectedStart
  split
  · rename_i hnow
    rw [NodeSet.contains_singleton, decide_eq_true_eq]
    constructor
    · exact fun hown => ⟨hnow.1, hown.1, hnow.2⟩
    · exact fun hown => ⟨hown.2.1, by omega⟩
  · rename_i hnow
    rw [NodeSet.contains_empty]
    refine iff_of_false (by decide) fun hown => hnow ⟨hown.1, hown.2.2⟩

theorem initialBreaches_eq (hm : m.WellFormed) (hp : m.Covers p) (s : Schedule) :
    m.initialBreaches s p = .ok ((List.range m.nodes).filterMap fun node =>
      if p.cell 0 node = m.expectedStart s node then none
      else some (.wrongStart node (p.cell 0 node) (m.expectedStart s node))) := by
  have hsize : m.chain.nodes ≤ p.cells.size := by
    have hsize := hp.size_le
    rw [Nat.mul_succ] at hsize
    omega
  rw [initialBreaches, if_neg (by rw [nodes_eq]; omega), oversized_eq_none hm]
  rfl

theorem reports_initialBreaches (hm : m.WellFormed) (hp : m.Covers p) (s : Schedule) :
    Reports (m.initialBreaches s p) (m.Satisfies s p .initialization) := by
  refine ⟨_, initialBreaches_eq hm hp s, ?_⟩
  rw [List.filterMap_eq_nil_iff]
  apply forall_congr'
  intro node
  rw [List.mem_range, nodes_eq]
  apply imp_congr_right
  intro hnode
  simp only [← contains_expectedStart hm hnode, ← NodeSet.eq_iff_contains]
  simp

theorem lt_of_mem_ends (hm : m.WellFormed) {endpoint : Nat}
    (hmem : endpoint ∈ [0, m.chain.farEnd]) : endpoint < m.chain.nodes := by
  have htwo := hm.two_le
  rcases List.mem_cons.1 hmem with rfl | hmem
  · omega
  · rw [List.mem_singleton.1 hmem]
    exact hm.farEnd_lt

theorem reports_boundaryBreaches (hm : m.WellFormed) (hp : m.Covers p) (s : Schedule) :
    Reports (m.boundaryBreaches p) (m.Satisfies s p .boundaryCompleteness) := by
  have hend : ∀ endpoint < m.chain.nodes, Reports (do
      let missing := m.chain.resultSet \ (← p.read m.horizon endpoint)
      return if missing.isEmpty then []
        else [Breach.incompleteEndpoint endpoint m.horizon missing])
      (∀ result, m.chain.isInner result = true →
        (p.cell m.horizon endpoint).contains result = true) := by
    intro endpoint hlt
    rw [hp.read_eq (Nat.le_refl _) hlt]
    refine ⟨_, rfl, ?_⟩
    have hsubset : (m.chain.resultSet \ p.cell m.horizon endpoint).isEmpty = true ↔
        ∀ result, m.chain.isInner result = true →
          (p.cell m.horizon endpoint).contains result = true :=
      Chain.resultSet_isSubset_iff hm.le_capacity
    rw [← hsubset]
    simp
  unfold boundaryBreaches
  rw [Chain.resultSetChecked_eq hm.two_le hm.le_capacity,
    Chain.farEndChecked_eq hm.two_le]
  obtain ⟨breaches, hok, hnil⟩ := Reports.mapM_flatten fun endpoint hmem =>
    hend endpoint (lt_of_mem_ends hm hmem)
  refine ⟨breaches, hok, hnil.trans ?_⟩
  simp only [List.forall_mem_cons, List.not_mem_nil, false_implies, forall_const, and_true,
    Satisfies]
  constructor
  · exact fun h result hinner => ⟨h.1 result hinner, h.2 result hinner⟩
  · exact fun h => ⟨fun result hinner => (h result hinner).1,
      fun result hinner => (h result hinner).2⟩

/-! ## Who sends what -/

theorem sameSlot_iff {a b : Message} : sameSlot a b = true ↔ a.slot = b.slot := by
  simp [sameSlot, Message.slot, and_assoc]

theorem formBreaches_eq_nil_iff (hm : m.WellFormed) (earlier : List Message) (a : Message) :
    formBreaches m.chain.resultSet earlier a = [] ↔
      (∀ b ∈ earlier, a.slot ≠ b.slot) ∧
      (∃ result, a.payload.contains result = true) ∧
      (∀ result, a.payload.contains result = true → m.chain.isInner result = true) := by
  unfold formBreaches
  rw [List.append_eq_nil_iff, List.append_eq_nil_iff, and_assoc]
  refine and_congr ?_ (and_congr ?_ ?_)
  · have hany : earlier.any (sameSlot a) = true ↔ ¬ ∀ b ∈ earlier, a.slot ≠ b.slot := by
      simp [List.any_eq_true, sameSlot_iff]
    by_cases h : earlier.any (sameSlot a) = true
    · rw [if_pos h]
      exact iff_of_false (by simp) (hany.1 h)
    · rw [if_neg h]
      exact iff_of_true rfl (Decidable.not_not.1 fun hnot => h (hany.2 hnot))
  · rw [← NodeSet.isEmpty_eq_false_iff]
    cases a.payload.isEmpty <;> simp
  · rw [← Chain.isSubset_resultSet_iff hm.le_capacity]
    simp

theorem reports_payloadBreaches (hp : m.Covers p) (a : Message) :
    Reports (m.payloadBreaches p a)
      (a.time ≤ m.horizon ∧ (a.sender < m.chain.nodes →
        ∀ result, a.payload.contains result = true →
          (p.cell a.time a.sender).contains result = true)) := by
  unfold payloadBreaches
  by_cases hlate : m.horizon < a.time
  · rw [if_pos hlate]
    refine ⟨_, rfl, iff_of_false (by simp) fun h => ?_⟩
    omega
  · rw [if_neg hlate]
    have hle : a.time ≤ m.horizon := by omega
    by_cases hout : m.nodes ≤ a.sender
    · refine ⟨[], by rw [if_pos hout]; rfl, iff_of_true rfl ⟨hle, fun hlt => ?_⟩⟩
      rw [nodes_eq] at hout
      omega
    · have hlt : a.sender < m.chain.nodes := Nat.not_le.1 hout
      refine ⟨if a.payload.isSubset (p.cell a.time a.sender) then []
        else [.unheldPayload a.sender a.time a.payload (p.cell a.time a.sender)], ?_, ?_⟩
      · rw [if_neg hout, hp.read_eq hle hlt]
        rfl
      · simp only [hle, hlt, true_and, forall_const, ← NodeSet.isSubset_iff]
        simp

/-- The check goes through the messages and compares each with all before it, so
that what it asks for besides is that no two messages share a slot. -/
theorem reports_messageBreaches (hm : m.WellFormed) (hp : m.Covers p)
    (rest : List Message) : ∀ earlier : List Message,
    Reports (m.messageBreaches p m.chain.resultSet earlier rest)
      ((rest.map Message.slot).Nodup ∧ (∀ a ∈ rest, ∀ b ∈ earlier, a.slot ≠ b.slot) ∧
        ∀ a ∈ rest, (∃ result, a.payload.contains result = true) ∧
          (∀ result, a.payload.contains result = true → m.chain.isInner result = true) ∧
          a.time ≤ m.horizon ∧ (a.sender < m.chain.nodes →
            ∀ result, a.payload.contains result = true →
              (p.cell a.time a.sender).contains result = true)) := by
  induction rest with
  | nil =>
      intro earlier
      exact ⟨[], rfl, by simp⟩
  | cons a rest ih =>
      intro earlier
      obtain ⟨payload, hpayload, hfine⟩ := reports_payloadBreaches hp a
      obtain ⟨others, hothers, hrest⟩ := ih (a :: earlier)
      refine ⟨formBreaches m.chain.resultSet earlier a ++ payload ++ others, ?_, ?_⟩
      · rw [messageBreaches, hpayload, hothers]
        rfl
      · rw [List.append_eq_nil_iff, List.append_eq_nil_iff, hfine, hrest,
          formBreaches_eq_nil_iff hm]
        simp only [List.map_cons, List.nodup_cons, List.mem_map, not_exists, not_and,
          List.forall_mem_cons]
        constructor
        · rintro ⟨⟨⟨hslot, hsome, hinner⟩, htime, hheld⟩, hnodup, hearlier, hall⟩
          exact ⟨⟨fun b hb hsame => (hearlier b hb).1 hsame, hnodup⟩,
            ⟨hslot, fun b hb => (hearlier b hb).2⟩, ⟨hsome, hinner, htime, hheld⟩, hall⟩
        · rintro ⟨⟨hnew, hnodup⟩, ⟨hslot, hearlier⟩, ⟨hsome, hinner, htime, hheld⟩, hall⟩
          exact ⟨⟨⟨hslot, hsome, hinner⟩, htime, hheld⟩, hnodup,
            fun b hb => ⟨fun hsame => hnew b hb hsame, hearlier b hb⟩, hall⟩

theorem reports_sendBreaches (hm : m.WellFormed) (hp : m.Covers p) (s : Schedule) :
    Reports (m.sendBreaches s p) (m.Satisfies s p .sendFeasibility) := by
  obtain ⟨breaches, hok, hnil⟩ := reports_messageBreaches hm hp s.messages []
  refine ⟨breaches, ?_, hnil.trans ?_⟩
  · rw [sendBreaches, Chain.resultSetChecked_eq hm.two_le hm.le_capacity]
    exact hok
  · simp [Satisfies]

theorem reports_adjacencyBreaches (s : Schedule) (p : Possession) :
    Reports (.ok (m.adjacencyBreaches s)) (m.Satisfies s p .adjacency) := by
  refine ⟨_, rfl, ?_⟩
  rw [adjacencyBreaches, List.map_eq_nil_iff, List.filter_eq_nil_iff]
  simp [Satisfies]

theorem announceBreach_eq_none_iff (s : Schedule) (node : Nat) :
    m.announceBreach s node = none ↔
      (m.rank node = 0 → (∃ other ∈ m.chain.beside node, 0 < m.rank other) →
        ∃ a ∈ s.messages, a.sender = node ∧ a.receiver ∈ m.chain.beside node ∧
          0 < m.rank a.receiver) := by
  have hranked : ∀ other, other ∈ m.rankedBeside node ↔
      other ∈ m.chain.beside node ∧ 0 < m.rank other := by
    intro other
    rw [rankedBeside, List.mem_filter, decide_eq_true_eq, rank]
  have hempty : (m.rankedBeside node).isEmpty = true ↔
      ¬ ∃ other ∈ m.chain.beside node, 0 < m.rank other := by
    rw [List.isEmpty_iff, List.eq_nil_iff_forall_not_mem]
    simp only [hranked]
    simp
  have hsends : (s.messages.any fun a =>
      a.sender == node && (m.rankedBeside node).contains a.receiver) = true ↔
      ∃ a ∈ s.messages, a.sender = node ∧ a.receiver ∈ m.chain.beside node ∧
        0 < m.rank a.receiver := by
    simp [List.any_eq_true, hranked]
  unfold announceBreach
  show (if m.rank node ≠ 0 ∨ (m.rankedBeside node).isEmpty then _ else _) = none ↔ _
  by_cases hskip : m.rank node ≠ 0 ∨ (m.rankedBeside node).isEmpty = true
  · rw [if_pos hskip]
    apply iff_of_true rfl
    intro hzero hsome
    rcases hskip with hrank | hnone
    · exact absurd hzero hrank
    · exact absurd hsome (hempty.1 hnone)
  · rw [if_neg hskip]
    obtain ⟨hzero, hsome⟩ := not_or.1 hskip
    have hzero := Decidable.not_not.1 hzero
    have hsome := Classical.not_not.1 fun hnone => hsome (hempty.2 hnone)
    by_cases hany : (s.messages.any fun a =>
        a.sender == node && (m.rankedBeside node).contains a.receiver) = true
    · rw [if_pos hany]
      exact iff_of_true rfl fun _ _ => hsends.1 hany
    · rw [if_neg hany]
      exact iff_of_false (by simp) fun h => hany (hsends.2 (h hzero hsome))

theorem announceBreaches_eq (hm : m.WellFormed) (s : Schedule) :
    m.announceBreaches s = .ok ((List.range m.nodes).filterMap (m.announceBreach s)) :=
  if_pos (Nat.le_of_eq hm.length_values.symm)

theorem reports_announceBreaches (hm : m.WellFormed) (s : Schedule) (p : Possession) :
    Reports (m.announceBreaches s) (m.Satisfies s p .rankZeroAnnounce) := by
  refine ⟨_, announceBreaches_eq hm s, ?_⟩
  rw [List.filterMap_eq_nil_iff]
  apply forall_congr'
  intro node
  rw [List.mem_range, nodes_eq]
  exact imp_congr_right fun _ => announceBreach_eq_none_iff s node

/-! ## All rules -/

/-- The check of a rule meets no fault, and reports nothing exactly if the
schedule and the table satisfy the rule. -/
theorem reports_breachesOf (hm : m.WellFormed) (hp : m.Covers p) (s : Schedule) (rule : Rule) :
    Reports (m.breachesOf s p rule) (m.Satisfies s p rule) := by
  cases rule with
  | taskExecution => exact reports_taskBreaches hm s p
  | rankEnablement => exact reports_enablementBreaches hm hp s
  | propagation => exact reports_propagationBreaches hm hp s
  | selfResult => exact reports_selfBreaches hm hp s
  | initialization => exact reports_initialBreaches hm hp s
  | boundaryCompleteness => exact reports_boundaryBreaches hm hp s
  | sendFeasibility => exact reports_sendBreaches hm hp s
  | adjacency => exact reports_adjacencyBreaches s p
  | rankZeroAnnounce => exact reports_announceBreaches hm s p

/-- A table that is claimed for a schedule passes if all rules of the bank are
satisfied. -/
theorem reports_judge (hm : m.WellFormed) (hp : m.Covers p) (s : Schedule) :
    Reports (m.judge s p) (∀ rule ∈ m.bank.rules, m.Satisfies s p rule) := by
  rw [judge, if_pos ⟨hp.nodes_eq, hp.horizon_eq⟩]
  exact Reports.mapM_flatten fun rule _ => reports_breachesOf hm hp s rule

theorem reports_verdict (hm : m.WellFormed) (hs : m.Storable) (s : Schedule) :
    Reports (m.verdict s) (∀ rule ∈ m.bank.rules,
      m.Satisfies s (s.table m.nodes m.horizon) rule) := by
  rw [verdict, replay_eq hm hs]
  exact reports_judge hm (covers_table s) s

/-! ## Lawful schedules -/

/-- A cell of the replay: the node executed by then, or was told before. -/
theorem contains_cell_iff (hm : m.WellFormed) (s : Schedule) {time node : Nat}
    (htime : time ≤ m.horizon) (hnode : node < m.chain.nodes) (result : Nat) :
    ((s.table m.nodes m.horizon).cell time node).contains result = true ↔
      (node = result ∧ ∃ e ∈ s.executions, e.node = node ∧ e.time ≤ time) ∨
        ∃ a ∈ s.messages, a.receiver = node ∧ a.time < time ∧
          a.payload.contains result = true :=
  Schedule.contains_cell_table hm.le_capacity htime hnode result

/-- What is held is in the table. -/
theorem contains_cell_of_holds (hm : m.WellFormed) {time node result : Nat}
    (htime : time ≤ m.horizon) (hnode : node < m.chain.nodes) (h : s.Holds node result time) :
    ((s.table m.nodes m.horizon).cell time node).contains result = true := by
  rw [contains_cell_iff hm s htime hnode]
  cases h with
  | @own _ e _ executes done => exact .inl ⟨rfl, ⟨node, e⟩, executes, rfl, done⟩
  | @told a _ _ _ sent receives arrived carries _ =>
      exact .inr ⟨a, sent, receives, arrived, carries⟩

/-- If payloads are found in the table at the time when they are sent, then all
that is in the table is held.  The payload of a message that shows in a row was
sent at an earlier time, so that the induction is on the time. -/
theorem holds_iff_contains (hm : m.WellFormed)
    (hfound : ∀ a ∈ s.messages, a.time ≤ m.horizon ∧ a.sender < m.chain.nodes ∧
      ∀ result, a.payload.contains result = true →
        ((s.table m.nodes m.horizon).cell a.time a.sender).contains result = true)
    {time node : Nat} (htime : time ≤ m.horizon) (hnode : node < m.chain.nodes) (result : Nat) :
    ((s.table m.nodes m.horizon).cell time node).contains result = true ↔
      s.Holds node result time := by
  refine ⟨?_, contains_cell_of_holds hm htime hnode⟩
  induction time using Nat.strongRecOn generalizing node with
  | ind time ih =>
      intro h
      rw [contains_cell_iff hm s htime hnode] at h
      rcases h with ⟨rfl, e, he, hat, hle⟩ | ⟨a, ha, hto, hlt, hcarries⟩
      · exact .own (hat ▸ he) hle
      · obtain ⟨hintime, hsender, hpayload⟩ := hfound a ha
        have hheld := ih a.time hlt hintime hsender (hpayload result hcarries)
        exact .told ha hto hlt hcarries hheld

/-- The rules about messages make sure that payloads are found in the table. -/
theorem contains_iff_holds_of_satisfies (hm : m.WellFormed)
    (hsend : m.Satisfies s (s.table m.nodes m.horizon) .sendFeasibility)
    (hbeside : m.Satisfies s (s.table m.nodes m.horizon) .adjacency)
    {time node : Nat} (htime : time ≤ m.horizon) (hnode : node < m.chain.nodes) (result : Nat) :
    ((s.table m.nodes m.horizon).cell time node).contains result = true ↔
      s.Holds node result time := by
  refine holds_iff_contains hm (fun a ha => ?_) htime hnode result
  have hsender := (Chain.sideBySide_iff.1 (hbeside a ha)).1
  obtain ⟨_, _, hle, hthere⟩ := hsend.2 a ha
  exact ⟨hle, hsender, hthere hsender⟩

/-- The standard rules, satisfied by the replayed table, make a schedule
lawful. -/
theorem lawful_of_satisfies (hm : m.WellFormed)
    (h : ∀ rule ∈ RuleBank.standard.rules, m.Satisfies s (s.table m.nodes m.horizon) rule) :
    m.Lawful s := by
  obtain ⟨hexec, honce⟩ := h .taskExecution (by decide)
  have henabled := h .rankEnablement (by decide)
  have hends := h .boundaryCompleteness (by decide)
  obtain ⟨hdistinct, hsend⟩ := h .sendFeasibility (by decide)
  have hbeside := h .adjacency (by decide)
  have hrange : ∀ a ∈ s.messages, a.sender < m.chain.nodes ∧ a.receiver < m.chain.nodes ∧
      (a.sender + 1 = a.receiver ∨ a.receiver + 1 = a.sender) :=
    fun a ha => Chain.sideBySide_iff.1 (hbeside a ha)
  have hholds : ∀ {time node : Nat}, time ≤ m.horizon → node < m.chain.nodes →
      ∀ result, ((s.table m.nodes m.horizon).cell time node).contains result = true ↔
        s.Holds node result time := contains_iff_holds_of_satisfies hm ⟨hdistinct, hsend⟩ hbeside
  have htwo := hm.two_le
  exact
    { once := honce
      inner := fun e he => (hexec e he).1
      in_time := fun e he => (hexec e he).2
      at_once := fun e he => (henabled e he (hexec e he).1 (hexec e he).2).1
      enabled := by
        intro e he hpos other hother hlt
        rw [← hholds (hexec e he).2 (Chain.lt_of_isInner (hexec e he).1)]
        exact (henabled e he (hexec e he).1 (hexec e he).2).2 (by omega) other ⟨hother, hlt⟩
      beside := by
        intro a ha
        obtain ⟨hsender, hreceiver, hnext⟩ := hrange a ha
        refine ⟨hsender, hreceiver, ?_⟩
        unfold Chain.hops
        omega
      sent_in_time := fun a ha => (hsend a ha).2.2.1
      nonempty := fun a ha => (hsend a ha).1
      distinct := hdistinct
      held := by
        intro a ha result hcarries
        rw [← hholds (hsend a ha).2.2.1 (hrange a ha).1]
        exact (hsend a ha).2.2.2 (hrange a ha).1 result hcarries
      complete := by
        intro result hinner
        rw [← hholds (Nat.le_refl _) (by omega),
          ← hholds (Nat.le_refl _) hm.farEnd_lt]
        exact hends result hinner }

/-- If every result gets to both endpoints, a node of rank 0 that could tell a
node of a higher rank does so. -/
theorem satisfies_announce (hm : m.WellFormed) (hlocal : s.Local) {now : Nat}
    (hends : ∀ node, m.chain.isInner node = true →
      s.Holds 0 node now ∧ s.Holds m.chain.farEnd node now) (p : Possession) :
    m.Satisfies s p .rankZeroAnnounce := by
  rintro node hnode hzero ⟨other, hother, hpos⟩
  have hinner := hm.isInner_of_rank_zero hnode hzero hpos
  obtain ⟨hfirst, hlast⟩ := hends node hinner
  obtain ⟨⟨a, ha, hsa, hra⟩, b, hb, hsb, hrb⟩ := hlocal.sends_both_ways hinner hfirst hlast
  rcases Chain.mem_beside.1 hother with hleft | ⟨hright, _⟩
  · have hto : a.receiver = other := by omega
    exact ⟨a, ha, hsa, hto ▸ hother, hto ▸ hpos⟩
  · have hto : b.receiver = other := by omega
    exact ⟨b, hb, hsb, hto ▸ hother, hto ▸ hpos⟩

namespace Orderly

theorem contains_cell_iff_holds (h : m.Orderly s) (hm : m.WellFormed) {time node : Nat}
    (htime : time ≤ m.horizon) (hnode : node < m.chain.nodes) (result : Nat) :
    ((s.table m.nodes m.horizon).cell time node).contains result = true ↔
      s.Holds node result time := by
  refine holds_iff_contains hm (fun a ha => ?_) htime hnode result
  have hsender := (Chain.sideBySide_iff.1 (h.sideBySide a ha)).1
  exact ⟨h.sent_in_time a ha, hsender, fun result hcarries =>
    contains_cell_of_holds hm (h.sent_in_time a ha) hsender (h.held a ha result hcarries)⟩

/-- Nodes execute when they may: the replay has what they wait for. -/
theorem satisfies_enablement (h : m.Orderly s) (hm : m.WellFormed) :
    m.Satisfies s (s.table m.nodes m.horizon) .rankEnablement := by
  intro e he hinner hle
  refine ⟨h.at_once e he, ?_⟩
  intro _ other hwaits
  rw [h.contains_cell_iff_holds hm hle (Chain.lt_of_isInner hinner)]
  exact h.holds_awaited hm he hwaits

/-- A message of an orderly schedule carries only what its sender holds, so its
receiver holds that next. -/
theorem satisfies_propagation (h : m.Orderly s) (hm : m.WellFormed) :
    m.Satisfies s (s.table m.nodes m.horizon) .propagation := by
  intro time htime node hnode result
  rw [h.contains_cell_iff_holds hm htime hnode, h.contains_cell_iff_holds hm (by omega) hnode,
    Schedule.holds_succ_iff, h.timeOf_eq_some_iff]
  apply or_congr_right
  apply or_congr_left
  constructor
  · rintro ⟨a, ha, hto, hnow, hcarries, _⟩
    exact ⟨a, ha, hto, hnow, hcarries⟩
  · rintro ⟨a, ha, hto, rfl, hcarries⟩
    exact ⟨a, ha, hto, rfl, hcarries, h.held a ha result hcarries⟩

theorem satisfies_selfResult (h : m.Orderly s) (hm : m.WellFormed) :
    m.Satisfies s (s.table m.nodes m.horizon) .selfResult := by
  intro time htime node hnode
  have hcell := h.contains_cell_iff_holds hm htime hnode
  constructor
  · intro result hthere
    exact h.inner_of_holds ((hcell result).1 hthere)
  · intro _
    rw [hcell]
    constructor
    · intro hholds
      obtain ⟨start, hexec, hle⟩ := hholds.executed
      exact ⟨start, h.timeOf_eq_some_iff.2 hexec, hle⟩
    · rintro ⟨start, hfirst, hle⟩
      exact .own (h.timeOf_eq_some_iff.1 hfirst) hle

/-- Nothing but an own result is there at time 0. -/
theorem satisfies_initialization (h : m.Orderly s) (hm : m.WellFormed) :
    m.Satisfies s (s.table m.nodes m.horizon) .initialization := by
  intro node hnode result
  rw [h.contains_cell_iff_holds hm (Nat.zero_le _) hnode, h.timeOf_eq_some_iff]
  constructor
  · intro hholds
    cases hholds with
    | own executes done =>
        cases Nat.le_zero.1 done
        exact ⟨h.inner _ executes, rfl, executes⟩
    | told _ _ arrived _ _ => omega
  · rintro ⟨_, rfl, hexec⟩
    exact .own hexec (Nat.le_refl _)

theorem satisfies_sendFeasibility (h : m.Orderly s) (hm : m.WellFormed) :
    m.Satisfies s (s.table m.nodes m.horizon) .sendFeasibility := by
  refine ⟨h.distinct, ?_⟩
  intro a ha
  have hinner : ∀ result, a.payload.contains result = true → m.chain.isInner result = true := by
    intro result hcarries
    exact h.inner_of_holds (h.held a ha result hcarries)
  refine ⟨h.nonempty a ha, hinner, h.sent_in_time a ha, ?_⟩
  intro hsender result hcarries
  rw [h.contains_cell_iff_holds hm (h.sent_in_time a ha) hsender]
  exact h.held a ha result hcarries

/-- An orderly schedule and its replay satisfy every rule that does not ask for
something to be done. -/
theorem satisfies (h : m.Orderly s) (hm : m.WellFormed) {rule : Rule}
    (htask : rule ≠ .taskExecution) (hends : rule ≠ .boundaryCompleteness)
    (hannounce : rule ≠ .rankZeroAnnounce) :
    m.Satisfies s (s.table m.nodes m.horizon) rule := by
  cases rule with
  | taskExecution => exact absurd rfl htask
  | rankEnablement => exact h.satisfies_enablement hm
  | propagation => exact h.satisfies_propagation hm
  | selfResult => exact h.satisfies_selfResult hm
  | initialization => exact h.satisfies_initialization hm
  | boundaryCompleteness => exact absurd rfl hends
  | sendFeasibility => exact h.satisfies_sendFeasibility hm
  | adjacency => exact h.sideBySide
  | rankZeroAnnounce => exact absurd rfl hannounce

end Orderly

namespace Lawful

theorem satisfies_boundary (h : m.Lawful s) (hm : m.WellFormed) :
    m.Satisfies s (s.table m.nodes m.horizon) .boundaryCompleteness := by
  have htwo := hm.two_le
  intro result hinner
  rw [h.orderly.contains_cell_iff_holds hm (Nat.le_refl _) (by omega),
    h.orderly.contains_cell_iff_holds hm (Nat.le_refl _) hm.farEnd_lt]
  exact h.complete result hinner

/-- A lawful schedule and its replay satisfy every rule. -/
theorem satisfies (h : m.Lawful s) (hm : m.WellFormed) (rule : Rule) :
    m.Satisfies s (s.table m.nodes m.horizon) rule := by
  cases rule with
  | taskExecution => exact ⟨fun e he => ⟨h.inner e he, h.in_time e he⟩, h.once⟩
  | boundaryCompleteness => exact h.satisfies_boundary hm
  | rankZeroAnnounce => exact satisfies_announce hm h.orderly.isLocal h.complete _
  | _ => exact h.orderly.satisfies hm nofun nofun nofun

end Lawful

/-- No rule whatsoever objects to a lawful schedule. -/
theorem verdict_eq_nil_of_lawful (hm : m.WellFormed) (hs : m.Storable) (h : m.Lawful s) :
    m.verdict s = .ok [] :=
  (reports_verdict hm hs s).eq_nil_iff.2 fun rule _ => h.satisfies hm rule

/-- A bank that has the standard rules accepts nothing but lawful schedules. -/
theorem lawful_of_verdict_eq_nil (hm : m.WellFormed) (hs : m.Storable)
    (hbank : ∀ rule ∈ RuleBank.standard.rules, rule ∈ m.bank.rules)
    (h : m.verdict s = .ok []) : m.Lawful s :=
  lawful_of_satisfies hm fun rule hrule =>
    (reports_verdict hm hs s).eq_nil_iff.1 h rule (hbank rule hrule)

/-- So it accepts just those. -/
theorem accepts_iff_lawful (hm : m.WellFormed) (hs : m.Storable)
    (hbank : ∀ rule ∈ RuleBank.standard.rules, rule ∈ m.bank.rules) :
    m.verdict s = .ok [] ↔ m.Lawful s :=
  ⟨lawful_of_verdict_eq_nil hm hs hbank, verdict_eq_nil_of_lawful hm hs⟩

end Model

/-- The verdict of a built model under the standard bank: it is empty exactly on
the lawful schedules. -/
theorem verdict_eq_nil_iff_lawful {p : Problem} {m : Model}
    (h : p.model .standard = .ok m) (s : Schedule) :
    m.verdict s = .ok [] ↔ m.Lawful s := by
  have hm := wellFormed_of_model h
  have hs := storable_of_model h
  constructor
  · exact Model.lawful_of_verdict_eq_nil hm hs (by rw [bank_of_model h]; exact fun _ hr => hr)
  · exact Model.verdict_eq_nil_of_lawful hm hs

/-! ## A meeting in the middle

Five nodes, of which the one in the middle waits for those beside it and then
sends everything back. -/

/-- The node in the middle has a higher rank than those beside it. -/
def meeting : Problem := { nodes := 5, horizon := 3, ranks := [2, 0, 1, 0, 2] }

/-- The model of `meeting` under the standard bank. -/
def meetingModel : Model where
  chain := { nodes := 5 }
  ranks := .assign { nodes := 5 } [2, 0, 1, 0, 2]
  horizon := 3
  bank := .standard

/-- A schedule with six messages. -/
def meetingSchedule : Schedule where
  executions := [⟨1, 0⟩, ⟨3, 0⟩, ⟨2, 1⟩]
  messages := [
    ⟨1, 2, 0, .ofList [1]⟩, ⟨3, 2, 0, .ofList [3]⟩,
    ⟨2, 1, 1, .ofList [1, 2, 3]⟩, ⟨2, 3, 1, .ofList [1, 2, 3]⟩,
    ⟨1, 0, 2, .ofList [1, 2, 3]⟩, ⟨3, 4, 2, .ofList [1, 2, 3]⟩]

theorem meetingSchedule_lawful :
    meeting.model .standard = .ok meetingModel ∧
      meetingModel.verdict meetingSchedule = .ok [] ∧
      meetingModel.Lawful meetingSchedule :=
  have hbuilt : meeting.model .standard = .ok meetingModel := rfl
  ⟨hbuilt, rfl, (verdict_eq_nil_iff_lawful hbuilt meetingSchedule).1 rfl⟩

end ChainPropagation
