import ChainPropagation.Proofs.Stepwise

/-!
# The rules, access by access

Some rules are total functions in `Model.breachesOf`: a list is counted, or searched for
its first entry, and a cell that is looked at is taken to be there.  Here these rules go
through the events once, with an array that has an entry for each node, and check every
access to arrays, ranks and the table, every time after another one, and every id that is
inserted into a set.  Events name their nodes and times freely, and each rule has its own
guards: some pass over an event, some go on after they have listed a breach of it.

The guards are enough (`stepwiseBreachesOf_eq`), so that with the replay access by access
(`stepwiseReplay_eq`) the validator answers whatever the events are (`validator_total`).
-/

namespace ChainPropagation

/-! ## Questions about each entry -/

section

variable {α β : Type}

/-- Asks about the entries of a list one after another. -/
def gather (ask : α → Checked (List β)) (entries : List α) : Checked (List β) := do
  return (← entries.mapM ask).flatten

/-- Asks about the entries of a list one after another, with at most one finding for
each. -/
def survey (ask : α → Checked (Option β)) (entries : List α) : Checked (List β) := do
  return (← entries.mapM ask).filterMap fun found => found

theorem gather_eq {ask : α → Checked (List β)} {answer : α → List β} {entries : List α}
    (h : ∀ a ∈ entries, ask a = .ok (answer a)) :
    gather ask entries = .ok (entries.flatMap answer) := by
  rw [gather, mapM_eq_ok h]
  rfl

theorem survey_eq {ask : α → Checked (Option β)} {answer : α → Option β} {entries : List α}
    (h : ∀ a ∈ entries, ask a = .ok (answer a)) :
    survey ask entries = .ok (entries.filterMap answer) := by
  rw [survey, mapM_eq_ok h, ok_bind, List.filterMap_map]
  rfl

end

/-! ## The checks -/

namespace Model

variable (m : Model) (s : Schedule) (p : Possession)

/-- How often each node of the chain executes. -/
def executionCounts : Checked (Array Nat) := do
  storing m.nodes
  tally (fun e => e.node < m.nodes) (fun e => .ok e.node) (fun _ count => .ok (count + 1))
    s.executions (Array.replicate m.nodes 0)

/-- When each node of the chain executes first. -/
def executionTimes : Checked (Array (Option Nat)) := do
  storing (2 * m.nodes)
  tally (fun e => e.node < m.nodes) (fun e => .ok e.node)
    (fun e first => .ok (first.or (some e.time))) s.executions (Array.replicate m.nodes none)

/-- What each node of the chain is told at a time. -/
def deliveries (time : Nat) : Checked (Array NodeSet) :=
  tally (fun a => a.time == time && a.receiver < m.nodes) (fun a => .ok a.receiver)
    (fun a told => .ok (told ∪ a.payload)) s.messages (Array.replicate m.nodes ∅)

/-- What is wrong with an execution by itself. -/
def stepwiseExecution (e : Execution) : Checked (List Breach) := do
  if m.nodes ≤ e.node then return [.unknownExecution e.node]
  return (if ← m.chain.isEnd e.node then [.endpointExecution e.node] else []) ++
    (if m.horizon < e.time then [.lateExecution e.node e.time m.horizon] else [])

/-- A node that does not execute exactly once. -/
def stepwiseCount (counts : Array Nat) (node : Nat) : Checked (Option Breach) := do
  let count ← entry counts node
  return if count = 1 then none else some (.executionCount node count)

/-- Breaches of `Rule.taskExecution`. -/
def stepwiseTask : Checked (List Breach) := do
  let counts ← m.executionCounts s
  let forms ← gather m.stepwiseExecution s.executions
  let counted ← survey (stepwiseCount counts) (← m.chain.innerChecked)
  return forms ++ counted

/-- What a node should hold at the time `next` after `time`. -/
def stepwiseExpected (times : Array (Option Nat)) (told : Array NodeSet) (time next node : Nat) :
    Checked NodeSet := do
  let received := (← p.read time node) ∪ (← entry told node)
  if (← entry times node) = some next then received.add node else return received

/-- A node whose cell at the time after `time` does not follow from the row before. -/
def stepwiseNext (times : Array (Option Nat)) (told : Array NodeSet) (time node : Nat) :
    Checked (Option Breach) := do
  let next ← fitting (time + 1)
  let expected ← stepwiseExpected p times told time next node
  let actual ← p.read next node
  return if actual = expected then none else some (.wrongPossession node next actual expected)

/-- Breaches of `Rule.propagation`. -/
def stepwisePropagation : Checked (List Breach) := do
  let times ← m.executionTimes s
  gather (fun time => do
    let told ← m.deliveries s time
    survey (stepwiseNext p times told time) (List.range m.nodes)) (List.range m.horizon)

/-- A cell with the node's own result without its execution or the other way round. -/
def stepwiseOwn (times : Array (Option Nat)) (held : NodeSet) (time node : Nat) :
    Checked (List Breach) := do
  -- nobody asks when an endpoint executes
  if !(← m.chain.isInnerChecked node) then return []
  let executed ← entry times node
  return if held.contains node != executed.any (· ≤ time) then
    [.ownResult node time (held.contains node) executed] else []

/-- What is wrong with one cell. -/
def stepwiseCell (results : NodeSet) (times : Array (Option Nat)) (time node : Nat) :
    Checked (List Breach) := do
  let held ← p.read time node
  let foreign := held \ results
  return (if foreign.isEmpty then [] else [.foreignResults node time foreign]) ++
    (← m.stepwiseOwn times held time node)

/-- Breaches of `Rule.selfResult`. -/
def stepwiseSelf : Checked (List Breach) := do
  let times ← m.executionTimes s
  let results ← m.chain.resultSetChecked
  gather (fun time => gather (m.stepwiseCell p results times time) (List.range m.nodes))
    (List.range (m.horizon + 1))

/-- What a node should hold at time 0. -/
def stepwiseOrigin (times : Array (Option Nat)) (node : Nat) : Checked NodeSet := do
  if !(← m.chain.isInnerChecked node) then return ∅
  if (← entry times node) = some 0 then NodeSet.add ∅ node else return ∅

/-- A node that does not hold at time 0 what it should. -/
def stepwiseStart (times : Array (Option Nat)) (node : Nat) : Checked (Option Breach) := do
  let expected ← m.stepwiseOrigin times node
  let actual ← p.read 0 node
  return if actual = expected then none else some (.wrongStart node actual expected)

/-- Breaches of `Rule.initialization`. -/
def stepwiseInitial : Checked (List Breach) := do
  let times ← m.executionTimes s
  survey (m.stepwiseStart p times) (List.range m.nodes)

/-- A node of rank 0 that could tell a node of a higher rank, and does not. -/
def stepwiseSilence (node : Nat) : Checked (Option Breach) := do
  if (← m.ranks.rankOf node) ≠ 0 then return none
  let ranked ← Checked.filter (fun other => do return 0 < (← m.ranks.rankOf other))
    (← m.chain.besideChecked node)
  if ranked.isEmpty then return none
  if s.messages.any fun a => a.sender == node && ranked.contains a.receiver then return none
  return some (.silentRankZero node)

/-- The breaches of a rule.  Those that `Model.breachesOf` checks access by access already
stay as they are. -/
def stepwiseBreachesOf : Rule → Checked (List Breach)
  | .taskExecution => m.stepwiseTask s
  | .rankEnablement => gather (m.enablementBreach p) s.executions
  | .propagation => m.stepwisePropagation s p
  | .selfResult => m.stepwiseSelf s p
  | .initialization => m.stepwiseInitial s p
  | .boundaryCompleteness => m.boundaryBreaches p
  | .sendFeasibility => m.sendBreaches s p
  | .adjacency => .ok (m.adjacencyBreaches s)
  | .rankZeroAnnounce => survey (m.stepwiseSilence s) (List.range m.nodes)

/-- The verdict with every access checked. -/
def stepwiseVerdict : Checked (List Breach) := do
  let p ← m.stepwiseReplay s
  if p.nodes = m.nodes ∧ p.horizon = m.horizon then
    gather (m.stepwiseBreachesOf s p) m.bank.rules
  else
    return [.wrongTableSize p.nodes (← fitting (p.horizon + 1)) m.nodes
      (← fitting (m.horizon + 1))]

end Model

/-! ## The arrays -/

/-- The first of several items, if there is none yet. -/
theorem foldl_or_some {α : Type} (view : α → Nat) (items : List α) (first : Option Nat) :
    items.foldl (fun first a => first.or (some (view a))) first =
      first.or (items.head?.map view) := by
  induction items generalizing first with
  | nil => simp
  | cons a items ih =>
      rw [List.foldl_cons, ih, Option.or_assoc]
      rfl

/-- To start with nothing and add what was there before comes to the same. -/
theorem union_foldl_payload (sent : List Message) (held : NodeSet) :
    held ∪ sent.foldl (fun told a => told ∪ a.payload) ∅ =
      sent.foldl (fun told a => told ∪ a.payload) held := by
  rw [NodeSet.eq_iff_contains]
  intro result
  rw [NodeSet.contains_union, Bool.or_eq_true, Model.contains_foldl_union,
    Model.contains_foldl_union, NodeSet.contains_empty, or_iff_right Bool.false_ne_true]

namespace Model

variable {m : Model} {s : Schedule} {p : Possession}

/-- The guard lets all executions of a node of the chain pass. -/
theorem filter_executions_of (s : Schedule) {node : Nat} (hnode : node < m.nodes) :
    (s.executions.filter fun e => e.node == node && decide (e.node < m.nodes)) =
      s.executions.filter (·.node == node) := by
  apply List.filter_congr
  intro e _
  rw [Bool.eq_iff_iff]
  simp only [Bool.and_eq_true, beq_iff_eq, decide_eq_true_eq]
  omega

theorem fills_executionCounts (hm : m.WellFormed) (s : Schedule) :
    Fills (m.executionCounts s) m.nodes fun node => s.executions.countP (·.node == node) := by
  rw [executionCounts, storing_nodes hm _ (by omega), ok_bind]
  refine Fills.congr (fills_tally Execution.node (fun _ count => count + 1)
    fun e _ hin => ⟨rfl, of_decide_eq_true hin, fun _ => rfl⟩) ?_
  intro node hnode
  rw [filter_executions_of s hnode, List.foldl_add_const, List.countP_eq_length_filter]
  omega

theorem fills_executionTimes (hm : m.WellFormed) (s : Schedule) :
    Fills (m.executionTimes s) m.nodes s.timeOf := by
  rw [executionTimes, storing_nodes hm _ (Nat.le_refl _), ok_bind]
  refine Fills.congr (fills_tally Execution.node (fun e first => first.or (some e.time))
    fun e _ hin => ⟨rfl, of_decide_eq_true hin, fun _ => rfl⟩) ?_
  intro node hnode
  rw [filter_executions_of s hnode, foldl_or_some, List.head?_filter]
  rfl

/-- What the messages sent at a time bring to each node. -/
theorem fills_deliveries (m : Model) (s : Schedule) (time : Nat) :
    Fills (m.deliveries s time) m.nodes fun node =>
      ((s.sentAt time).filter (·.receiver == node)).foldl (fun told a => told ∪ a.payload) ∅ := by
  refine Fills.congr (fills_tally Message.receiver (fun a told => told ∪ a.payload) ?_) ?_
  · intro a _ hin
    simp only [Bool.and_eq_true, decide_eq_true_eq] at hin
    exact ⟨rfl, hin.2, fun _ => rfl⟩
  · intro node hnode
    have hsame : ∀ a : Message,
        (a.receiver == node && (a.time == time && decide (a.receiver < m.nodes))) =
          (a.receiver == node && a.time == time) := by
      intro a
      rw [Bool.eq_iff_iff]
      simp only [Bool.and_eq_true, beq_iff_eq, decide_eq_true_eq]
      omega
    rw [Schedule.sentAt, List.filter_filter]
    simp only [hsame]

/-! ## No access misses -/

theorem stepwiseExecution_eq (hm : m.WellFormed) (e : Execution) :
    m.stepwiseExecution e = .ok (m.executionBreaches e) := by
  rw [stepwiseExecution, executionBreaches, Chain.isEnd_eq hm.two_le]
  split
  · rfl
  · simp

theorem stepwiseTask_eq (hm : m.WellFormed) (s : Schedule) :
    m.stepwiseTask s = m.taskBreaches s := by
  obtain ⟨counts, hcounts, hentries⟩ := fills_executionCounts hm s
  have hcount : ∀ node ∈ m.chain.inner, stepwiseCount counts node = .ok (countBreach s node) := by
    intro node hnode
    have hlt : node < m.nodes := Chain.lt_of_isInner (Chain.mem_inner.1 hnode)
    rw [stepwiseCount, hentries node hlt]
    rfl
  rw [stepwiseTask, hcounts, ok_bind, gather_eq fun e _ => stepwiseExecution_eq hm e, ok_bind,
    Chain.innerChecked_eq hm.two_le, ok_bind, survey_eq hcount, taskBreaches_eq hm]
  rfl

theorem stepwiseNext_eq (hm : m.WellFormed) (hs : m.Storable) (hp : m.Covers p)
    {times : Array (Option Nat)} {told : Array NodeSet} {time node : Nat}
    (htime : time < m.horizon) (hnode : node < m.nodes)
    (hfirst : entry times node = .ok (s.timeOf node))
    (htold : entry told node = .ok (((s.sentAt time).filter (·.receiver == node)).foldl
      (fun told a => told ∪ a.payload) ∅)) :
    stepwiseNext p times told time node = .ok (
      let expected := expectedNext p (m.firstTimes s) (s.sentAt time) time node
      let actual := p.cell (time + 1) node
      if actual = expected then none
      else some (.wrongPossession node (time + 1) actual expected)) := by
  have hexpected : stepwiseExpected p times told time (time + 1) node =
      .ok (expectedNext p (m.firstTimes s) (s.sentAt time) time node) := by
    rw [stepwiseExpected, hp.read_eq (Nat.le_of_lt htime) hnode, ok_bind, htold, ok_bind, hfirst,
      ok_bind, union_foldl_payload, expectedNext, getD_firstTimes hnode]
    split
    · exact if_pos (Nat.lt_of_lt_of_le hnode hm.le_capacity)
    · rfl
  rw [stepwiseNext, hs.fitting_eq (Nat.le_succ_of_le htime), ok_bind, hexpected, ok_bind,
    hp.read_eq htime hnode]
  rfl

theorem stepwisePropagation_eq (hm : m.WellFormed) (hs : m.Storable) (hp : m.Covers p)
    (s : Schedule) : m.stepwisePropagation s p = m.propagationBreaches s p := by
  obtain ⟨times, htimes, hfirst⟩ := fills_executionTimes hm s
  rw [stepwisePropagation, htimes, ok_bind, propagationBreaches_eq hm hp]
  apply gather_eq
  intro time htime
  obtain ⟨told, hdelivered, htold⟩ := fills_deliveries m s time
  rw [hdelivered, ok_bind]
  apply survey_eq
  intro node hnode
  have hlt := List.mem_range.1 hnode
  exact stepwiseNext_eq hm hs hp (List.mem_range.1 htime) hlt (hfirst node hlt) (htold node hlt)

theorem stepwiseCell_eq (hm : m.WellFormed) (hp : m.Covers p) {times : Array (Option Nat)}
    {time node : Nat} (htime : time ≤ m.horizon) (hnode : node < m.nodes) (results : NodeSet)
    (hfirst : entry times node = .ok (s.timeOf node)) :
    m.stepwiseCell p results times time node =
      .ok (m.cellBreaches p results (m.firstTimes s) time node) := by
  have hown : m.stepwiseOwn times (p.cell time node) time node =
      .ok (if m.chain.isInner node && (p.cell time node).contains node !=
        (s.timeOf node).any (· ≤ time) then
          [.ownResult node time ((p.cell time node).contains node) (s.timeOf node)] else []) := by
    rw [stepwiseOwn, Chain.isInnerChecked_eq hm.two_le, ok_bind]
    cases m.chain.isInner node
    · rfl
    · rw [Bool.not_true, if_neg Bool.false_ne_true, hfirst, Bool.true_and]
      rfl
  rw [stepwiseCell, hp.read_eq htime hnode, ok_bind, hown, cellBreaches, getD_firstTimes hnode]
  rfl

theorem stepwiseSelf_eq (hm : m.WellFormed) (hp : m.Covers p) (s : Schedule) :
    m.stepwiseSelf s p = m.selfBreaches s p := by
  obtain ⟨times, htimes, hfirst⟩ := fills_executionTimes hm s
  rw [stepwiseSelf, htimes, ok_bind, Chain.resultSetChecked_eq hm.two_le hm.le_capacity, ok_bind,
    selfBreaches_eq hm hp]
  apply gather_eq
  intro time htime
  apply gather_eq
  intro node hnode
  have hlt := List.mem_range.1 hnode
  exact stepwiseCell_eq hm hp (Nat.le_of_lt_succ (List.mem_range.1 htime)) hlt _ (hfirst node hlt)

theorem stepwiseStart_eq (hm : m.WellFormed) (hp : m.Covers p) {times : Array (Option Nat)}
    {node : Nat} (hnode : node < m.nodes) (hfirst : entry times node = .ok (s.timeOf node)) :
    m.stepwiseStart p times node = .ok (
      if p.cell 0 node = m.expectedStart s node then none
      else some (.wrongStart node (p.cell 0 node) (m.expectedStart s node))) := by
  have horigin : m.stepwiseOrigin times node = .ok (m.expectedStart s node) := by
    rw [stepwiseOrigin, Chain.isInnerChecked_eq hm.two_le, ok_bind, expectedStart]
    cases m.chain.isInner node
    · rfl
    · rw [Bool.not_true, if_neg Bool.false_ne_true, hfirst, ok_bind]
      have hfits : node < NodeSet.capacity := Nat.lt_of_lt_of_le hnode hm.le_capacity
      by_cases hzero : s.timeOf node = some 0
      · rw [if_pos hzero, if_pos ⟨rfl, hzero⟩]
        exact if_pos hfits
      · rw [if_neg hzero, if_neg fun hboth => hzero hboth.2]
        rfl
  rw [stepwiseStart, horigin, ok_bind, hp.read_eq (Nat.zero_le _) hnode]
  rfl

theorem stepwiseInitial_eq (hm : m.WellFormed) (hp : m.Covers p) (s : Schedule) :
    m.stepwiseInitial s p = m.initialBreaches s p := by
  obtain ⟨times, htimes, hfirst⟩ := fills_executionTimes hm s
  rw [stepwiseInitial, htimes, ok_bind, initialBreaches_eq hm hp]
  apply survey_eq
  intro node hnode
  have hlt := List.mem_range.1 hnode
  exact stepwiseStart_eq hm hp hlt (hfirst node hlt)

theorem stepwiseSilence_eq (hm : m.WellFormed) (s : Schedule) {node : Nat}
    (hnode : node < m.nodes) : m.stepwiseSilence s node = .ok (m.announceBreach s node) := by
  have hword : node + 1 < wordLimit := by
    have hcap := hm.le_capacity
    rw [nodes_eq] at hnode
    unfold NodeSet.capacity at hcap
    unfold wordLimit
    omega
  have hranked : Checked.filter (fun other => do return 0 < (← m.ranks.rankOf other))
      (m.chain.beside node) = .ok (m.rankedBeside node) := by
    apply Checked.filter_eq_ok
    intro other hother
    rw [hm.rankOf_eq (Chain.lt_of_mem_beside hnode hother)]
    rfl
  rw [stepwiseSilence, hm.rankOf_eq hnode, ok_bind, announceBreach]
  show _ = Except.ok (if m.rank node ≠ 0 ∨ (m.rankedBeside node).isEmpty then none
    else if s.messages.any fun a =>
      a.sender == node && (m.rankedBeside node).contains a.receiver then none
    else some (Breach.silentRankZero node))
  by_cases hrank : m.rank node ≠ 0
  · rw [if_pos hrank, if_pos (.inl hrank)]
    rfl
  · rw [if_neg hrank, Chain.besideChecked_eq hword, ok_bind, hranked, ok_bind]
    by_cases hnone : (m.rankedBeside node).isEmpty = true
    · rw [if_pos hnone, if_pos (.inr hnone)]
      rfl
    · rw [if_neg hnone, if_neg (not_or.2 ⟨hrank, hnone⟩)]
      split <;> rfl

theorem stepwiseBreachesOf_eq (hm : m.WellFormed) (hs : m.Storable) (hp : m.Covers p)
    (s : Schedule) (rule : Rule) : m.stepwiseBreachesOf s p rule = m.breachesOf s p rule := by
  cases rule with
  | taskExecution => exact stepwiseTask_eq hm s
  | rankEnablement => rfl
  | propagation => exact stepwisePropagation_eq hm hs hp s
  | selfResult => exact stepwiseSelf_eq hm hp s
  | initialization => exact stepwiseInitial_eq hm hp s
  | boundaryCompleteness => rfl
  | sendFeasibility => rfl
  | adjacency => rfl
  | rankZeroAnnounce =>
      rw [breachesOf, announceBreaches_eq hm]
      exact survey_eq fun node hnode => stepwiseSilence_eq hm s (List.mem_range.1 hnode)

/-- With every access checked the verdict is the same. -/
theorem stepwiseVerdict_eq (hm : m.WellFormed) (hs : m.Storable) (s : Schedule) :
    m.stepwiseVerdict s = m.verdict s := by
  have hrules : m.stepwiseBreachesOf s (s.table m.nodes m.horizon) =
      m.breachesOf s (s.table m.nodes m.horizon) :=
    funext fun rule => stepwiseBreachesOf_eq hm hs (covers_table s) s rule
  rw [stepwiseVerdict, stepwiseReplay_eq hm hs, verdict, replay_eq hm hs, ok_bind, ok_bind, judge,
    hrules]
  rfl

end Model

/-- On a built model the validator answers for every schedule, whatever ids and times its
events have and however often they occur: the replay ends in a table, and the verdict in a
list of breaches, which is empty exactly if the table satisfies all rules of the bank.  With
every access checked, both come out the same. -/
theorem validator_total {p : Problem} {bank : RuleBank} {m : Model} (h : p.model bank = .ok m)
    (s : Schedule) :
    ∃ table breaches,
      m.stepwiseReplay s = .ok table ∧ m.replay s = .ok table ∧
      m.stepwiseVerdict s = .ok breaches ∧ m.verdict s = .ok breaches ∧
      m.isValid s = .ok breaches.isEmpty ∧
      (breaches = [] ↔ ∀ rule ∈ bank.rules, m.Satisfies s table rule) := by
  have hm := wellFormed_of_model h
  have hs := storable_of_model h
  have hreplay := Model.replay_eq hm hs s
  obtain ⟨breaches, hverdict, hfine⟩ := Model.reports_verdict hm hs s
  rw [bank_of_model h] at hfine
  refine ⟨s.table m.nodes m.horizon, breaches, ?_, hreplay, ?_, hverdict, ?_, hfine⟩
  · rw [Model.stepwiseReplay_eq hm hs, hreplay]
  · rw [Model.stepwiseVerdict_eq hm hs, hverdict]
  · rw [Model.isValid, hverdict]
    rfl

/-- The model of the meeting under all rules, each of them twice. -/
def severeMeeting : Model := { meetingModel with bank := { rules := Rule.all ++ Rule.all } }

/-- Executions and messages with ids and times from outside the chain, some of them
repeated. -/
def strayEvents : Schedule where
  executions := [⟨1, 0⟩, ⟨64, 0⟩, ⟨18446744073709551615, 18446744073709551615⟩, ⟨0, 1⟩, ⟨1, 2⟩,
    ⟨3, 18446744073709551615⟩]
  messages := [⟨1, 2, 0, .singleton 1⟩, ⟨1, 2, 0, .singleton 63⟩,
    ⟨18446744073709551615, 64, 3, .singleton 63⟩, ⟨2, 3, 18446744073709551615, ∅⟩,
    ⟨64, 4, 2, .singleton 0⟩]

/-- The validator answers for them: they are not valid. -/
theorem strayEvents_judged :
    meeting.model { rules := Rule.all ++ Rule.all } = .ok severeMeeting ∧
      severeMeeting.isValid strayEvents = .ok false ∧
      ∃ table breaches,
        severeMeeting.stepwiseReplay strayEvents = .ok table ∧
        severeMeeting.replay strayEvents = .ok table ∧
        severeMeeting.stepwiseVerdict strayEvents = .ok breaches ∧
        severeMeeting.verdict strayEvents = .ok breaches ∧
        severeMeeting.isValid strayEvents = .ok breaches.isEmpty ∧
        (breaches = [] ↔ ∀ rule ∈ Rule.all ++ Rule.all,
          severeMeeting.Satisfies strayEvents table rule) :=
  have hbuilt : meeting.model { rules := Rule.all ++ Rule.all } = .ok severeMeeting := rfl
  ⟨hbuilt, rfl, validator_total hbuilt strayEvents⟩

end ChainPropagation
