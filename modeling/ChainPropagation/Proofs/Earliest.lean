import ChainPropagation.Proofs.Forecast
import ChainPropagation.Proofs.Recording
import ChainPropagation.Traffic

/-!
# Floods are earliest

A flood does not send everything: what its receiver has already, or is being told
in the same step, is left out.  Yet the table that it sets down shows at each time
just what can be reached by then, until the flood is done (`FloodsTo.charts`).  The
induction is on its steps: the row of a step is what can be reached now
(`Opens.contains_iff_reaches`), and for later rows nothing is lost or gained by
the step (`Opens.reaches_delivered_iff`).

As no schedule is faster than that, floods are earliest node by node and cell by
cell, and the forecast for a blank draft says when (`flood_earliest`).

## Main results

* `FloodsTo.charts` — the table of a flood.
* `completion_eq_some_iff` — what the time of completion in a table means.
* `flood_earliest` — estimates, flood and the replay of any valid schedule.
-/

namespace ChainPropagation

/-! ## What is written into a table -/

namespace Draft

variable {m : Model} {d e f last : Draft}

theorem covers_start (m : Model) : m.Covers (start m).possession :=
  { nodes_eq := rfl
    horizon_eq := rfl
    size_le := Nat.le_of_eq Array.size_replicate.symm }

theorem covers_settled (hcovers : m.Covers d.possession) : m.Covers d.settled.possession :=
  { nodes_eq := (nodes_settled d).trans hcovers.nodes_eq
    horizon_eq := (Possession.horizon_foldl_writeRow _).trans hcovers.horizon_eq
    size_le := Nat.le_trans hcovers.size_le
      (Nat.le_of_eq (Possession.size_foldl_writeRow _).symm) }

theorem possession_of_sendIfUseful {link : Nat × Nat} (h : m.sendIfUseful d link = .ok e) :
    e.possession = d.possession := by
  obtain ⟨useful, _, h⟩ := bind_eq_ok.1 h
  cases useful with
  | true =>
      rw [eq_sent_of_send h]
      rfl
  | false =>
      cases h
      rfl

/-- Its messages write nothing. -/
theorem possession_of_floodOnce (h : m.floodOnce e = .ok f) : f.possession = e.possession := by
  obtain ⟨links, _, hfold⟩ := bind_eq_ok.1 h
  exact eq_of_foldlM Draft.possession possession_of_sendIfUseful hfold

theorem covers_of_executeReady (hcovers : m.Covers d.possession)
    (hexec : m.executeReady d = .ok e) : m.Covers e.possession := by
  obtain ⟨opened, htable, _, _, rfl⟩ := eq_noted_of_executeReady hexec
  rw [← htable] at hcovers
  exact hcovers.writeRow opened.time opened.held.toList

/-- After the executions the table shows what is held now, and else what it showed
before. -/
theorem Consistent.cell_opened (h : e.Consistent m) (hcovers : m.Covers d.possession)
    (hexec : m.executeReady d = .ok e) {time node : Nat} (htime : time ≤ m.horizon)
    (hnode : node < m.nodes) : e.possession.cell time node =
      if time = d.time then e.holding node else d.possession.cell time node := by
  obtain ⟨opened, htable, _, hnow, rfl⟩ := eq_noted_of_executeReady hexec
  rw [← htable] at hcovers ⊢
  rw [← hnow]
  exact cell_noted hcovers h.size_held htime hnode

/-! ## What a flood sets down -/

/-- What is held after the executions is what can be reached now. -/
theorem Opens.contains_iff_reaches (hopens : Opens m d (d.Ready m) e) {node result : Nat} :
    (e.holding node).contains result = true ↔ d.Reaches m node result d.time :=
  ⟨hopens.reaches_of_contains, fun hreach => hopens.contains_of_reaches hreach rfl⟩

/-- A flooded step leaves it open to reach just what takes more time than now. -/
theorem Opens.reaches_delivered_iff (hopens : Opens m d (d.Ready m) e) (hm : m.WellFormed)
    (hquiet : d.Quiet) (hflood : Flooded m e f) {node result time : Nat} (hlater : d.time < time) :
    f.delivered.Reaches m node result time ↔ d.Reaches m node result time :=
  ⟨hopens.reaches_of_delivered hquiet hflood.toSpreads,
    fun hreach => hopens.reaches_delivered hm hflood hreach hlater⟩

/-- So it does not change when the draft can finish, unless it can now. -/
theorem FinishesAt.delivered {least : Nat} (h : FinishesAt m d least)
    (hopens : Opens m d (d.Ready m) e) (hm : m.WellFormed) (hquiet : d.Quiet)
    (hflood : Flooded m e f) (hends : ¬ e.EndsHold m) : FinishesAt m f.delivered least := by
  intro time
  rw [h time, hopens.time_delivered hflood.toSpreads]
  constructor
  · intro hcan
    have hlater : d.time < time := by
      apply Nat.lt_of_le_of_ne hcan.1
      rintro rfl
      exact hends (hopens.endsHold_iff_canFinishBy.2 hcan.2)
    exact ⟨hlater, hopens.canFinishBy_delivered hm hflood hcan.2 hlater⟩
  · intro hcan
    exact ⟨Nat.le_of_succ_le hcan.1,
      hopens.canFinishBy_of_delivered hquiet hflood.toSpreads hcan.2⟩

/-- A draft keeps the rows of another one, and its later rows show what can be
reached from there by their time; nothing changes after the time `least`. -/
structure Charts (m : Model) (d f : Draft) (least : Nat) : Prop where
  covers : m.Covers f.possession
  kept : ∀ time < d.time, ∀ node < m.nodes,
    f.possession.cell time node = d.possession.cell time node
  contains_iff : ∀ time, d.time ≤ time → time ≤ m.horizon → ∀ node < m.nodes, ∀ result,
    (f.possession.cell time node).contains result = true ↔
      d.Reaches m node result (min time least)

/-- When the endpoints hold everything, all rows that are left are the present
one. -/
theorem Opens.charts_of_endsHold (hopens : Opens m d (d.Ready m) e)
    (hexec : m.executeReady d = .ok e) (hends : e.EndsHold m) (hcovers : m.Covers d.possession)
    {least : Nat} (hleast : FinishesAt m d least) : Charts m d e.settled least := by
  have he := hopens.consistent
  have hopened := covers_of_executeReady hcovers hexec
  have hnow : least = d.time := hleast.eq_time (hopens.endsHold_iff_canFinishBy.1 hends)
  have hcell : ∀ time ≤ m.horizon, ∀ node < m.nodes, e.settled.possession.cell time node =
      if d.time ≤ time then e.holding node else d.possession.cell time node := by
    intro time htime node hnode
    rw [cell_settled hopened he.size_held he.horizon_eq he.time_le htime hnode,
      he.cell_opened hcovers hexec htime hnode, hopens.time_eq]
    by_cases hle : d.time ≤ time
    · rw [if_pos hle, if_pos hle]
    · have hpast : time ≠ d.time := by omega
      rw [if_neg hle, if_neg hle, if_neg hpast]
  exact
    { covers := covers_settled hopened
      kept := by
        intro time hpast node hnode
        have hle := hopens.time_eq ▸ he.time_le
        rw [hcell time (by omega) node hnode, if_neg (Nat.not_le.2 hpast)]
      contains_iff := by
        intro time hlater htime node hnode result
        rw [hcell time htime node hnode, if_pos hlater, hnow, Nat.min_eq_right hlater]
        exact hopens.contains_iff_reaches }

/-- One step of a flood before the rest of it. -/
theorem Opens.charts_of_next (hopens : Opens m d (d.Ready m) e) (hm : m.WellFormed)
    (hquiet : d.Quiet) (hexec : m.executeReady d = .ok e) (hends : ¬ e.EndsHold m)
    (hsends : m.floodOnce e = .ok f) (hflood : Flooded m e f) (hcovers : m.Covers d.possession)
    {least : Nat} (hleast : FinishesAt m d least) (hrest : Charts m f.delivered last least) :
    Charts m d last least := by
  have htime := hopens.time_delivered hflood.toSpreads
  have hend : d.time ≤ m.horizon := hopens.time_eq ▸ hopens.consistent.time_le
  have hlate : d.time < least := by
    have hlater := (hleast.delivered hopens hm hquiet hflood hends).time_le
    omega
  -- the rows until now are not written again
  have hcell : ∀ time ≤ d.time, ∀ node < m.nodes, last.possession.cell time node =
      if time = d.time then e.holding node else d.possession.cell time node := by
    intro time hle node hnode
    rw [hrest.kept time (by omega) node hnode]
    show f.possession.cell time node = _
    rw [possession_of_floodOnce hsends]
    exact hopens.consistent.cell_opened hcovers hexec (by omega) hnode
  exact
    { covers := hrest.covers
      kept := by
        intro time hpast node hnode
        rw [hcell time (Nat.le_of_lt hpast) node hnode, if_neg (Nat.ne_of_lt hpast)]
      contains_iff := by
        intro time hle hwithin node hnode result
        by_cases hnow : time = d.time
        · subst hnow
          rw [hcell d.time hle node hnode, if_pos rfl, Nat.min_eq_left (Nat.le_of_lt hlate)]
          exact hopens.contains_iff_reaches
        · rw [hrest.contains_iff time (by omega) hwithin node hnode]
          exact hopens.reaches_delivered_iff hm hquiet hflood (by omega) }

/-- The table of a flood shows what can be reached at each time until it is done,
and no more than that afterwards. -/
theorem FloodsTo.charts (hflood : FloodsTo m d f) (hm : m.WellFormed)
    (hcovers : m.Covers d.possession) {least : Nat} (hleast : FinishesAt m d least) :
    Charts m d f least := by
  induction hflood with
  | ends _ executes opens complete =>
      exact opens.charts_of_endsHold executes complete hcovers hleast
  | @goes d e f last consistent quiet executes opens incomplete sends flooded rest ih =>
      have hnext : m.Covers f.delivered.possession := by
        show m.Covers f.possession
        rw [possession_of_floodOnce sends]
        exact covers_of_executeReady hcovers executes
      have hlater := hleast.delivered opens hm quiet flooded incomplete
      exact opens.charts_of_next hm quiet executes incomplete sends flooded hcovers hleast
        (ih hnext hlater)

end Draft

/-! ## When a table is complete -/

namespace Model

variable {m : Model} {p : Possession} {s : Schedule}

/-- Both endpoints hold every result in the row of a time. -/
def CompleteAt (m : Model) (p : Possession) (time : Nat) : Prop :=
  ∀ result, m.chain.isInner result = true →
    (p.cell time 0).contains result = true ∧ (p.cell time m.chain.farEnd).contains result = true

theorem completeAt_iff (hm : m.WellFormed) (p : Possession) (time : Nat) :
    (m.chain.resultSet.isSubset (p.cell time 0) &&
      m.chain.resultSet.isSubset (p.cell time m.chain.farEnd)) = true ↔ m.CompleteAt p time := by
  rw [Bool.and_eq_true, Chain.resultSet_isSubset_iff hm.le_capacity,
    Chain.resultSet_isSubset_iff hm.le_capacity]
  exact forall₂_and.symm

/-- A table that has all its rows is read without a fault. -/
theorem completion_eq_ok (hm : m.WellFormed) (hp : m.Covers p) :
    p.completion m.chain.resultSet m.chain.farEnd =
      .ok ((List.range (m.horizon + 1)).find? fun time =>
        m.chain.resultSet.isSubset (p.cell time 0) &&
          m.chain.resultSet.isSubset (p.cell time m.chain.farEnd)) := by
  rw [Possession.completion, hp.horizon_eq]
  apply findM?_eq_ok
  intro time hmem
  have htime := Nat.le_of_lt_succ (List.mem_range.1 hmem)
  rw [hp.read_eq htime hm.first_lt, hp.read_eq htime hm.farEnd_lt]
  cases hfirst : m.chain.resultSet.isSubset (p.cell time 0) with
  | false => simp [hfirst]
  | true => simp [hfirst]

/-- The time of completion is the first of a complete row. -/
theorem completion_eq_some_iff (hm : m.WellFormed) (hp : m.Covers p) {time : Nat} :
    p.completion m.chain.resultSet m.chain.farEnd = .ok (some time) ↔
      time ≤ m.horizon ∧ m.CompleteAt p time ∧ ∀ earlier < time, ¬ m.CompleteAt p earlier := by
  rw [completion_eq_ok hm hp, Except.ok.injEq, List.find?_range_eq_some, completeAt_iff hm,
    List.mem_range, Nat.lt_succ_iff]
  simp only [Bool.not_eq_true', ← Bool.not_eq_true, completeAt_iff hm]
  exact and_left_comm

/-- A table with a complete row has a time of completion. -/
theorem exists_completion (hm : m.WellFormed) (hp : m.Covers p) {time : Nat}
    (htime : time ≤ m.horizon) (hcomplete : m.CompleteAt p time) :
    ∃ done, p.completion m.chain.resultSet m.chain.farEnd = .ok (some done) := by
  have hfound : ((List.range (m.horizon + 1)).find? fun time =>
      m.chain.resultSet.isSubset (p.cell time 0) &&
        m.chain.resultSet.isSubset (p.cell time m.chain.farEnd)).isSome = true := by
    rw [List.find?_isSome]
    exact ⟨time, List.mem_range.2 (Nat.lt_succ_of_le htime), (completeAt_iff hm p time).2 hcomplete⟩
  obtain ⟨done, hdone⟩ := Option.isSome_iff_exists.1 hfound
  exact ⟨done, by rw [completion_eq_ok hm hp, hdone]⟩

/-! ## What schedules hold -/

/-- A row of the replay is complete if the endpoints hold everything then. -/
theorem Orderly.completeAt_iff (h : m.Orderly s) (hm : m.WellFormed) {time : Nat}
    (htime : time ≤ m.horizon) : m.CompleteAt (s.table m.nodes m.horizon) time ↔
      ∀ result, m.chain.isInner result = true →
        s.Holds 0 result time ∧ s.Holds m.chain.farEnd result time := by
  apply forall₂_congr
  intro result _
  rw [h.contains_cell_iff_holds hm htime hm.first_lt,
    h.contains_cell_iff_holds hm htime hm.farEnd_lt]

namespace Lawful

/-- Whatever a schedule holds can be reached by then. -/
theorem reaches (hlaw : m.Lawful s) (hm : m.WellFormed) (hs : m.Storable) {node result now : Nat}
    (hholds : s.Holds node result now) : (Draft.start m).Reaches m node result now := by
  have hahead := Draft.ahead_zero (.start m) s
  have houtruns := hahead.outruns (Draft.consistent_start hs.horizon_lt) hm hlaw (Nat.le_refl 0) now
  rw [← Nat.zero_add now] at hholds ⊢
  exact houtruns node result hholds

/-- A node that executes in a schedule can execute then. -/
theorem canExecute (hlaw : m.Lawful s) (hm : m.WellFormed) (hs : m.Storable) {node time : Nat}
    (hexec : ⟨node, time⟩ ∈ s.executions) : (Draft.start m).CanExecute m node time :=
  { inner := hlaw.inner _ hexec
    fresh := Draft.executedAt_start m node
    at_once := fun _ => rfl
    now := Nat.zero_le _
    waits := fun _ hwaits => hlaw.reaches hm hs (hlaw.holds_awaited hm hexec hwaits) }

/-- The endpoints can hold everything whenever they do. -/
theorem canFinishBy (hlaw : m.Lawful s) (hm : m.WellFormed) (hs : m.Storable) {time : Nat}
    (htime : time ≤ m.horizon) (hcomplete : m.CompleteAt (s.table m.nodes m.horizon) time) :
    (Draft.start m).CanFinishBy m time := by
  rw [hlaw.orderly.completeAt_iff hm htime] at hcomplete
  intro result hinner
  have hholds := hcomplete result hinner
  exact ⟨hlaw.reaches hm hs hholds.1, hlaw.reaches hm hs hholds.2⟩

end Lawful

end Model

namespace Draft

variable {m : Model} {f : Draft} {least : Nat}

/-- The rows of a flood until it is done. -/
theorem Charts.contains_iff_reaches (h : Charts m (start m) f least) (hle : least ≤ m.horizon)
    {time node : Nat} (htime : time ≤ least) (hnode : node < m.nodes) (result : Nat) :
    (f.possession.cell time node).contains result = true ↔
      (start m).Reaches m node result time := by
  have hshown := h.contains_iff time (Nat.zero_le _) (Nat.le_trans htime hle) node hnode result
  rw [Nat.min_eq_left htime] at hshown
  exact hshown

/-- They are complete as soon as the draft can finish. -/
theorem Charts.completion_eq (h : Charts m (start m) f least) (hm : m.WellFormed)
    (hle : least ≤ m.horizon) (hleast : FinishesAt m (start m) least) :
    f.possession.completion m.chain.resultSet m.chain.farEnd = .ok (some least) := by
  have hcomplete : ∀ time ≤ least,
      m.CompleteAt f.possession time ↔ (start m).CanFinishBy m time := by
    intro time htime
    apply forall₂_congr
    intro result _
    rw [h.contains_iff_reaches hle htime hm.first_lt, h.contains_iff_reaches hle htime hm.farEnd_lt]
  rw [Model.completion_eq_some_iff hm h.covers]
  refine ⟨hle, ?_, ?_⟩
  · exact (hcomplete least (Nat.le_refl _)).2 hleast.canFinishBy
  · intro earlier hlt hearly
    have hcan := (hcomplete earlier (Nat.le_of_lt hlt)).1 hearly
    exact Nat.not_le.2 hlt (hleast.le_of_canFinishBy (Nat.zero_le _) hcan)

end Draft

/-! ## Floods and schedules -/

/-- A draft that is done at the time `least` forestalls a schedule with its table:
no node executes any earlier in the schedule, the endpoints do not hold everything
before `least`, and until then nobody holds more than in the draft. -/
structure Model.Forestalls (m : Model) (f : Draft) (least : Nat) (s : Schedule)
    (table : Possession) : Prop where
  executes : ∀ node, m.chain.isInner node = true → ∃ start time,
    f.executedAt node = some start ∧ s.timeOf node = some time ∧ start ≤ time
  completes : ∃ done, table.completion m.chain.resultSet m.chain.farEnd = .ok (some done) ∧
    least ≤ done
  holds : ∀ time ≤ least, ∀ node < m.nodes,
    (table.cell time node).isSubset (f.possession.cell time node) = true

theorem Draft.Charts.forestalls {m : Model} {f : Draft} {least : Nat} {s : Schedule}
    (h : Charts m (start m) f least) (hm : m.WellFormed) (hs : m.Storable)
    (hle : least ≤ m.horizon) (hleast : FinishesAt m (start m) least)
    (hattains : Attains m (start m) f) (hlaw : m.Lawful s) :
    m.Forestalls f least s (s.table m.nodes m.horizon) :=
  { executes := by
      intro node hinner
      obtain ⟨start, hstart, hcan⟩ := hattains node hinner (executedAt_start m node)
      obtain ⟨time, hexec, _⟩ := (hlaw.complete node hinner).1.executed
      have hlater : start ≤ time := (hcan time).1 (hlaw.canExecute hm hs hexec)
      exact ⟨start, time, hstart, hlaw.orderly.timeOf_eq_some_iff.2 hexec, hlater⟩
    completes := by
      have hcovers := Model.covers_table (m := m) s
      have hlast := (hlaw.orderly.completeAt_iff hm (Nat.le_refl _)).2 hlaw.complete
      obtain ⟨done, hdone⟩ := Model.exists_completion hm hcovers (Nat.le_refl _) hlast
      have hfirst := (Model.completion_eq_some_iff hm hcovers).1 hdone
      have hcan := hlaw.canFinishBy hm hs hfirst.1 hfirst.2.1
      exact ⟨done, hdone, hleast.le_of_canFinishBy (Nat.zero_le _) hcan⟩
    holds := by
      intro time htime node hnode
      rw [NodeSet.isSubset_iff]
      intro result hshown
      have hwithin : time ≤ m.horizon := Nat.le_trans htime hle
      have hholds := (hlaw.orderly.contains_cell_iff_holds hm hwithin hnode result).1 hshown
      exact (h.contains_iff_reaches hle htime hnode result).2 (hlaw.reaches hm hs hholds) }

/-- The flood of a model that has a schedule. -/
theorem Model.exists_flood {m : Model} (hm : m.WellFormed) (hs : m.Storable)
    (hsome : ∃ s, m.Lawful s) : ∃ f, m.flood = .ok (some f) ∧ Draft.FloodsTo m (.start m) f := by
  obtain ⟨result, hflood, _, hdone⟩ := flood_eq hm hs
  obtain ⟨f, rfl⟩ := Option.isSome_iff_exists.1 (hdone.2 hsome)
  have hfrom : m.floodFrom m.horizon (.start m) = .ok (some f) := by
    rw [flood, Draft.blankDraft_eq hs] at hflood
    exact hflood
  have hend : (Draft.start m).time + m.horizon ≤ m.horizon := Nat.le_of_eq (Nat.zero_add _)
  exact ⟨f, hflood, Draft.Consistent.floodsTo_of_floodFrom hm m.horizon _
    (Draft.consistent_start hs.horizon_lt) (Draft.quiet_start m) hend hfrom⟩

/-- Where there is no obstacle the flood completes, at the time that is forecast for
the blank draft: each node executes at its estimate, and the table is complete then
and no earlier.  The flood forestalls every valid schedule. -/
theorem flood_earliest {p : Problem} {bank : RuleBank} {m : Model}
    (hbank : ∀ rule ∈ RuleBank.standard.rules, rule ∈ bank.rules) (h : p.model bank = .ok m)
    (hclear : m.obstacle = .ok none) :
    ∃ blank estimates least f, m.blankDraft = .ok blank ∧
      m.soonestExecutions blank = .ok estimates ∧ m.soonestCompletion blank = .ok (some least) ∧
      m.flood = .ok (some f) ∧
      (∀ node, m.chain.isInner node = true →
        ∃ start, f.executedAt node = some start ∧ lookUp estimates node = .ok (some start)) ∧
      f.possession.completion m.chain.resultSet m.chain.farEnd = .ok (some least) ∧
      ∀ s, m.verdict s = .ok [] →
        ∃ table, m.replay s = .ok table ∧ m.Forestalls f least s table := by
  have hm := wellFormed_of_model h
  have hs := storable_of_model h
  rw [← bank_of_model h] at hbank
  have hstart := Draft.consistent_start hs.horizon_lt
  have hquiet := Draft.quiet_start m
  obtain ⟨obstacle, hobstacle, hnone, _⟩ := Model.obstacle_eq hm hs
  rw [hclear] at hobstacle
  cases hobstacle
  have hsome := hnone.1 rfl
  obtain ⟨f, hflood, hfloods⟩ := Model.exists_flood hm hs hsome
  have hattains := hfloods.attains hm
  obtain ⟨estimates, hestimates, _, hest⟩ := hstart.soonestExecutions_eq hm hquiet
  obtain ⟨completion, hcompletion, hmet⟩ := hstart.soonestCompletion_eq hm hquiet
  obtain ⟨other, hother⟩ := hsome
  have hcan := (Draft.ahead_zero _ other).canFinish hstart hm hother (Nat.le_refl 0) (Nat.zero_le _)
  obtain ⟨least, rfl, hle⟩ := (hmet m.horizon).2 ⟨Nat.zero_le _, hcan⟩
  simp only [Met.some_iff] at hmet
  have hcharts := hfloods.charts hm (Draft.covers_start m) hmet
  refine ⟨.start m, estimates, least, f, Draft.blankDraft_eq hs, hestimates, hcompletion, hflood,
    ?_, hcharts.completion_eq hm hle hmet, ?_⟩
  · intro node hinner
    have hfresh := Draft.executedAt_start m node
    obtain ⟨start, hexec, hleast⟩ := hattains node hinner hfresh
    have hknown := hm.mem_sequence.2 hinner
    exact ⟨start, hexec, hest.lookUp_eq hknown hinner hfresh hleast⟩
  · intro s hvalid
    have hlaw := Model.lawful_of_verdict_eq_nil hm hs hbank hvalid
    exact ⟨s.table m.nodes m.horizon, Model.replay_eq hm hs s,
      hcharts.forestalls hm hs hle hmet hattains hlaw⟩

/-- The flood of the meeting is done at time 3, and the middle executes at time 1;
the schedule of the meeting is no faster. -/
theorem meetingSchedule_forestalled :
    (∀ rule ∈ RuleBank.standard.rules, rule ∈ RuleBank.standard.rules) ∧
      meeting.model .standard = .ok meetingModel ∧ meetingModel.obstacle = .ok none ∧
      meetingModel.verdict meetingSchedule = .ok [] ∧
      ∃ f table, meetingModel.flood = .ok (some f) ∧
        meetingModel.replay meetingSchedule = .ok table ∧ f.executedAt 2 = some 1 ∧
        f.possession.completion (.ofList [1, 2, 3]) 4 = .ok (some 3) ∧
        meetingModel.Forestalls f 3 meetingSchedule table := by
  have hbank : ∀ rule ∈ RuleBank.standard.rules, rule ∈ RuleBank.standard.rules :=
    fun _ hrule => hrule
  have hbuilt : meeting.model .standard = .ok meetingModel := rfl
  have hclear : meetingModel.obstacle = .ok none := by decide +kernel
  have hvalid : meetingModel.verdict meetingSchedule = .ok [] := rfl
  have hforecast : meetingModel.soonestCompletion (.start meetingModel) = .ok (some 3) := by
    decide +kernel
  have hestimate : (do lookUp (← meetingModel.soonestExecutions (.start meetingModel)) 2) =
      .ok (some 1) := by
    decide +kernel
  obtain ⟨blank, estimates, least, f, hblank, hestimates, hleast, hflood, hexecutes, hdone,
    hforestalls⟩ := flood_earliest hbank hbuilt hclear
  rw [Draft.blankDraft_eq (storable_of_model hbuilt)] at hblank
  have hstart := Except.ok.inj hblank
  rw [← hstart, hforecast] at hleast
  rw [← hstart] at hestimates
  cases hleast
  rw [hestimates] at hestimate
  obtain ⟨start, hexec, hlook⟩ := hexecutes 2 (by decide)
  have hmiddle : f.executedAt 2 = some 1 := by
    rw [hexec]
    exact Except.ok.inj (hlook.symm.trans hestimate)
  obtain ⟨table, hreplay, hbehind⟩ := hforestalls meetingSchedule hvalid
  exact ⟨hbank, hbuilt, hclear, hvalid, f, table, hflood, hreplay, hmiddle, hdone, hbehind⟩

end ChainPropagation
