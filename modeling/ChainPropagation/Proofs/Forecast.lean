import ChainPropagation.Proofs.Allowed

/-!
# Forecasts

The estimates of `Model.soonestExecutions` and `Model.soonestCompletion` are used
in the midst of a search, on drafts that floods do not come to: some messages were
sent and others were not, and the search may even have repeated itself.  They are
exact there too.  No run from such a draft is faster, since a step lets nothing be
reached that was not to be reached before (`canFinishBy_of_proceeds`); and a flood
is as fast as the estimates say, for every single node (`FloodsTo.attains`).

So `Model.canFinish` closes a branch of the search exactly if no run from there
completes in time (`canFinish_exact`).
-/

namespace ChainPropagation

namespace Draft

/-! ## Runs that execute at once -/

/-- One time of a run that executes as soon as it can, and sends what may be sent:
as much of it as it likes, repeatedly or not at all. -/
inductive Proceeds (m : Model) (d g : Draft) : Prop where
  | step {e f : Draft} {links : List (Nat × Nat)} (opens : m.executeReady d = .ok e)
      (sends : Sends m links e f) (passes : f.passTime = .ok g) : Proceeds m d g

/-- A draft that such a run goes through, at the beginning of a step or within it. -/
inductive Visits (m : Model) (d : Draft) : Draft → Prop where
  | between {g : Draft} (run : Relation.ReflTransGen (Proceeds m) d g) : Visits m d g
  | within {g e f : Draft} {links : List (Nat × Nat)}
      (run : Relation.ReflTransGen (Proceeds m) d g) (opens : m.executeReady g = .ok e)
      (sends : Sends m links e f) : Visits m d f

variable {m : Model} {d e f g : Draft}

/-- All that a step can do to a consistent draft. -/
theorem Proceeds.step_eq (hstep : Proceeds m d g) (hm : m.WellFormed) (h : d.Consistent m) :
    ∃ e f, Opens m d (d.Ready m) e ∧ Spreads m e f ∧ f.time < m.horizon ∧ g = f.delivered := by
  cases hstep with
  | @step e f links opens sends passes =>
      have hopens := h.opens_of_executeReady hm opens
      have hspreads := sends.spreads hopens.consistent
      obtain ⟨hlt, hpass⟩ := eq_delivered_of_passTime passes
      rw [hspreads.consistent.horizon_eq] at hlt
      exact ⟨e, f, hopens, hspreads, hlt, hpass⟩

theorem Proceeds.consistent (hstep : Proceeds m d g) (hm : m.WellFormed) (h : d.Consistent m) :
    g.Consistent m ∧ g.Quiet := by
  obtain ⟨e, f, _, hspreads, hlt, rfl⟩ := hstep.step_eq hm h
  exact ⟨hspreads.consistent.delivered hlt, quiet_delivered f⟩

theorem consistent_of_proceeds (hrun : Relation.ReflTransGen (Proceeds m) d g)
    (hm : m.WellFormed) (h : d.Consistent m) (hquiet : d.Quiet) : g.Consistent m ∧ g.Quiet := by
  induction hrun with
  | refl => exact ⟨h, hquiet⟩
  | tail _ step ih => exact step.consistent hm ih.1

/-! ## No run is faster -/

/-- If a draft that a run comes to can finish by a time, the run could from its
beginning. -/
theorem canFinishBy_of_proceeds (hrun : Relation.ReflTransGen (Proceeds m) d g)
    (hm : m.WellFormed) (h : d.Consistent m) (hquiet : d.Quiet) {time : Nat}
    (hcan : g.CanFinishBy m time) : d.CanFinishBy m time := by
  induction hrun with
  | refl => exact hcan
  | tail run step ih =>
      obtain ⟨hconsistent, hstill⟩ := consistent_of_proceeds run hm h hquiet
      obtain ⟨e, f, hopens, hspreads, _, rfl⟩ := step.step_eq hm hconsistent
      exact ih (hopens.canFinishBy_of_delivered hstill hspreads hcan)

theorem EndsHold.canFinishBy (hends : d.EndsHold m) : d.CanFinishBy m d.time :=
  fun result hinner => ⟨.held (hends result hinner).1 (Nat.le_refl _),
    .held (hends result hinner).2 (Nat.le_refl _)⟩

/-- A run completes only if its beginning can finish. -/
theorem Visits.canFinish (hvisits : Visits m d e) (hm : m.WellFormed) (h : d.Consistent m)
    (hquiet : d.Quiet) (hdone : m.isDone e = .ok true) : d.CanFinish m := by
  cases hvisits with
  | between run =>
      have hg := (consistent_of_proceeds run hm h hquiet).1
      have hends : e.EndsHold m := (hg.decides_isDone hm).of_eq_true hdone
      exact canFinishBy_of_proceeds run hm h hquiet (hends.canFinishBy.mono hg.time_le)
  | @within g opened _ links run opens sends =>
      have hg := (consistent_of_proceeds run hm h hquiet).1
      have hopens := hg.opens_of_executeReady hm opens
      have hspreads := sends.spreads hopens.consistent
      have hends : e.EndsHold m := (hspreads.consistent.decides_isDone hm).of_eq_true hdone
      -- what is sent within a step is held by nobody yet
      have hopened : opened.EndsHold m := by
        intro result hinner
        rw [← hspreads.holding_eq, ← hspreads.holding_eq]
        exact hends result hinner
      have hnow := hopens.endsHold_iff_canFinishBy.1 hopened
      exact canFinishBy_of_proceeds run hm h hquiet (hnow.mono hg.time_le)

/-! ## Floods are runs -/

theorem sends_of_foldlM_sendIfUseful (hm : m.WellFormed) (links : List (Nat × Nat)) :
    ∀ d : Draft, d.Consistent m → links.foldlM m.sendIfUseful d = .ok f →
      ∃ used, Sends m used d f := by
  induction links with
  | nil =>
      intro d _ hfold
      cases hfold
      exact ⟨[], .nil⟩
  | cons link links ih =>
      intro d h hfold
      rw [List.foldlM_cons] at hfold
      obtain ⟨e, hsend, hrest⟩ := bind_eq_ok.1 hfold
      obtain ⟨answer, hasked, hsend⟩ := bind_eq_ok.1 hsend
      cases answer with
      | true =>
          have huseful := (h.decides_isUseful hm _ _).of_eq_true hasked
          have hallowed := h.canSend_iff.2 ⟨huseful.beside, huseful.some_held⟩
          have he : e.Consistent m := by
            rw [eq_sent_of_send hsend]
            exact (h.grows_sent huseful).consistent
          obtain ⟨used, hsends⟩ := ih e he hrest
          exact ⟨link :: used, .cons hallowed hsend hsends⟩
      | false =>
          cases hsend
          exact ih d h hrest

theorem Consistent.proceeds_of_floodOnce (h : d.Consistent m) (hm : m.WellFormed)
    (hexec : m.executeReady d = .ok e) (hflood : m.floodOnce e = .ok f)
    (hpass : f.passTime = .ok g) : Proceeds m d g := by
  obtain ⟨links, _, hfold⟩ := bind_eq_ok.1 hflood
  obtain ⟨used, hsends⟩ :=
    sends_of_foldlM_sendIfUseful hm links e (h.opens_of_executeReady hm hexec).consistent hfold
  exact .step hexec hsends hpass

/-- A draft that can finish does so in some run, for instance in a flood. -/
theorem Consistent.exists_visit (hm : m.WellFormed) (left : Nat) : ∀ d : Draft,
    d.Consistent m → d.Quiet → d.time + left = m.horizon → d.CanFinish m →
    ∃ e, Visits m d e ∧ m.isDone e = .ok true ∧ e.time ≤ m.horizon := by
  induction left with
  | zero =>
      intro d h _ hend hcan
      obtain ⟨e, hexec, hopens⟩ := h.executeReady_eq hm
      have hnow : d.time = m.horizon := hend
      have hends : e.EndsHold m := hopens.endsHold_iff_canFinishBy.2 (hnow ▸ hcan)
      exact ⟨e, .within .refl hexec .nil, (hopens.consistent.decides_isDone hm).eq_true hends,
        hopens.consistent.time_le⟩
  | succ left ih =>
      intro d h hquiet hend hcan
      obtain ⟨e, hexec, hopens⟩ := h.executeReady_eq hm
      obtain ⟨f, hflooded, hflood, hpass, hf, hstill, htime, _⟩ :=
        hopens.flood_eq hm hquiet (by omega)
      have hnext := hopens.canFinishBy_delivered hm hflood hcan (by omega)
      obtain ⟨leaf, hvisits, hdone, hle⟩ := ih f.delivered hf hstill (by omega) hnext
      have hstep := h.proceeds_of_floodOnce hm hexec hflooded hpass
      refine ⟨leaf, ?_, hdone, hle⟩
      cases hvisits with
      | between run => exact .between (.head hstep run)
      | within run opens sends => exact .within (.head hstep run) opens sends

/-! ## Floods are as fast as can be -/

/-- The first time at which a draft can finish. -/
def FinishesAt (m : Model) (d : Draft) (least : Nat) : Prop :=
  ∀ time, least ≤ time ↔ d.time ≤ time ∧ d.CanFinishBy m time

namespace FinishesAt

variable {least : Nat}

theorem time_le (h : FinishesAt m d least) : d.time ≤ least := ((h least).1 (Nat.le_refl _)).1

theorem canFinishBy (h : FinishesAt m d least) : d.CanFinishBy m least :=
  ((h least).1 (Nat.le_refl _)).2

theorem le_of_canFinishBy (h : FinishesAt m d least) {time : Nat} (hnow : d.time ≤ time)
    (hcan : d.CanFinishBy m time) : least ≤ time :=
  (h time).2 ⟨hnow, hcan⟩

theorem eq_time (h : FinishesAt m d least) (hcan : d.CanFinishBy m d.time) : least = d.time :=
  Nat.le_antisymm (h.le_of_canFinishBy (Nat.le_refl _) hcan) h.time_le

end FinishesAt

/-- A draft in which every node that had not executed yet did so as soon as it
could. -/
def Attains (m : Model) (d f : Draft) : Prop :=
  ∀ node, m.chain.isInner node = true → d.executedAt node = none →
    ∃ start, f.executedAt node = some start ∧ ∀ time, d.CanExecute m node time ↔ start ≤ time

/-- A node that can execute now may do so. -/
theorem Opens.ready_of_canExecute (hopens : Opens m d (d.Ready m) e) (h : d.Consistent m)
    {node : Nat} (hcan : d.CanExecute m node d.time) : d.Ready m node := by
  have hheld := hopens.contains_of_reaches hcan.reaches rfl
  rcases (hopens.contains_holding node node).1 hheld with hold | ⟨_, hready⟩
  · obtain ⟨time, hexec⟩ := h.executed_of_contains hold
    rw [hcan.fresh] at hexec
    cases hexec
  · exact hready

theorem Ready.canExecute_iff {node : Nat} (hready : d.Ready m node) (time : Nat) :
    d.CanExecute m node time ↔ d.time ≤ time :=
  ⟨fun hcan => hcan.now, fun hle => hready.canExecute.mono hle⟩

/-- A flooded step changes nothing about when the nodes that are left can
execute. -/
theorem Opens.canExecute_delivered_iff (hopens : Opens m d (d.Ready m) e) (hm : m.WellFormed)
    (h : d.Consistent m) (hquiet : d.Quiet) (hflood : Flooded m e f) {node : Nat}
    (hnot : ¬ d.Ready m node) (time : Nat) :
    f.delivered.CanExecute m node time ↔ d.CanExecute m node time := by
  have htime := hopens.time_delivered hflood.toSpreads
  have hsame : f.delivered.executedAt node = e.executedAt node := hflood.executedAt_eq node
  constructor
  -- what is awaited came from this step, so it could be there before
  · intro hcan
    exact
      { inner := hcan.inner
        fresh := hopens.fresh_before (hsame ▸ hcan.fresh)
        at_once := by
          intro hzero
          have hstart := hcan.at_once hzero
          omega
        now := by
          have hlater := hcan.now
          omega
        waits := fun other hwaits =>
          hopens.reaches_of_delivered hquiet hflood.toSpreads (hcan.waits other hwaits) }
  -- a node that is not ready needs a later time, and by then a flood has told it
  · intro hcan
    have hrank := hcan.rank_ne_zero hm hnot
    have hlater : d.time < time := by
      apply Nat.lt_of_le_of_ne hcan.now
      rintro rfl
      exact hnot (hopens.ready_of_canExecute h hcan)
    exact
      { inner := hcan.inner
        fresh := hsame.trans (hopens.fresh hcan.fresh hnot)
        at_once := fun hzero => absurd hzero hrank
        now := by omega
        waits := fun other hwaits =>
          hopens.reaches_delivered hm hflood (hcan.waits other hwaits) hlater }

theorem Opens.keeps (hopens : Opens m d (d.Ready m) e) {node start : Nat}
    (hexec : d.executedAt node = some start) : e.executedAt node = some start :=
  (hopens.executedAt_iff node start).2 (.inl hexec)

/-- When the endpoints hold everything, all nodes have executed, the last of them
just now. -/
theorem Opens.attains_of_endsHold (hopens : Opens m d (d.Ready m) e) (hends : e.EndsHold m) :
    Attains m d e := by
  intro node hinner hfresh
  obtain ⟨time, hexec⟩ := hopens.consistent.executed_of_contains (hends node hinner).1
  rcases (hopens.executedAt_iff node time).1 hexec with hold | ⟨hready, rfl⟩
  · rw [hfresh] at hold
    cases hold
  · exact ⟨d.time, hexec, hready.canExecute_iff⟩

/-- One step of a flood before the rest of it, which keeps the executions of the
step. -/
theorem Opens.attains_of_next (hopens : Opens m d (d.Ready m) e) (hm : m.WellFormed)
    (h : d.Consistent m) (hquiet : d.Quiet) (hflood : Flooded m e f)
    (hkeeps : ∀ node start, f.executedAt node = some start → g.executedAt node = some start)
    (hattains : Attains m f.delivered g) : Attains m d g := by
  intro node hinner hfresh
  -- a node executes in this step or its estimate is the one after it
  by_cases hready : d.Ready m node
  · have hexec : f.executedAt node = some d.time := by
      rw [hflood.executedAt_eq]
      exact (hopens.executedAt_iff node d.time).2 (.inr ⟨hready, rfl⟩)
    exact ⟨d.time, hkeeps node d.time hexec, hready.canExecute_iff⟩
  · have hlater : f.delivered.executedAt node = none :=
      (hflood.executedAt_eq node).trans (hopens.fresh hfresh hready)
    obtain ⟨start, hstart, hcan⟩ := hattains node hinner hlater
    refine ⟨start, hstart, fun time => ?_⟩
    rw [← hopens.canExecute_delivered_iff hm h hquiet hflood hready]
    exact hcan time

/-- A flood that completes, step by step. -/
inductive FloodsTo (m : Model) : (d last : Draft) → Prop where
  | ends {d e : Draft} (consistent : d.Consistent m) (executes : m.executeReady d = .ok e)
      (opens : Opens m d (d.Ready m) e) (complete : e.EndsHold m) : FloodsTo m d e.settled
  | goes {d e f last : Draft} (consistent : d.Consistent m) (quiet : d.Quiet)
      (executes : m.executeReady d = .ok e) (opens : Opens m d (d.Ready m) e)
      (incomplete : ¬ e.EndsHold m) (sends : m.floodOnce e = .ok f) (flooded : Flooded m e f)
      (rest : FloodsTo m f.delivered last) : FloodsTo m d last

theorem Consistent.floodsTo_of_floodFrom (hm : m.WellFormed) (left : Nat) : ∀ d : Draft,
    d.Consistent m → d.Quiet → d.time + left ≤ m.horizon →
    m.floodFrom left d = .ok (some f) → FloodsTo m d f := by
  induction left with
  | zero =>
      intro d h hquiet _ hok
      obtain ⟨e, hexec, hopens⟩ := h.executeReady_eq hm
      by_cases hends : e.EndsHold m
      · rw [Model.floodFrom_of_finished (hopens.finishes hm hquiet hexec hends)] at hok
        cases hok
        exact .ends h hexec hopens hends
      · rw [Model.floodFrom_zero_of_continuing (hopens.continues hm hexec hends)] at hok
        cases hok
  | succ left ih =>
      intro d h hquiet hend hok
      obtain ⟨e, hexec, hopens⟩ := h.executeReady_eq hm
      by_cases hends : e.EndsHold m
      · rw [Model.floodFrom_of_finished (hopens.finishes hm hquiet hexec hends)] at hok
        cases hok
        exact .ends h hexec hopens hends
      · obtain ⟨g, hsends, hflood, hpass, hg, hstill, htime, _⟩ :=
          hopens.flood_eq hm hquiet (by omega)
        have hbegin := hopens.continues hm hexec hends
        rw [Model.floodFrom_succ_of_continuing hbegin hsends hpass] at hok
        have hrest := ih g.delivered hg hstill (by omega) hok
        exact .goes h hquiet hexec hopens hends hsends hflood hrest

/-- What a flood comes to keeps the executions that there were. -/
theorem FloodsTo.keeps (hflood : FloodsTo m d f) {node start : Nat}
    (hexec : d.executedAt node = some start) : f.executedAt node = some start := by
  induction hflood with
  | ends _ _ opens _ => exact opens.keeps hexec
  | goes _ _ _ opens _ _ flooded _ ih =>
      exact ih ((flooded.executedAt_eq node).trans (opens.keeps hexec))

/-- It adds the others as soon as can be. -/
theorem FloodsTo.attains (hflood : FloodsTo m d f) (hm : m.WellFormed) : Attains m d f := by
  induction hflood with
  | ends _ _ opens complete => exact opens.attains_of_endsHold complete
  | goes consistent quiet _ opens _ _ flooded rest ih =>
      exact opens.attains_of_next hm consistent quiet flooded (fun _ _ => rest.keeps) ih

/-- An estimate that is least for its node is found in the list. -/
theorem Estimated.lookUp_eq {known : List Nat} {estimates : List (Option Nat)}
    (hest : d.Estimated m known estimates) {node start : Nat} (hknown : node ∈ known)
    (hinner : m.chain.isInner node = true) (hfresh : d.executedAt node = none)
    (hleast : ∀ time, d.CanExecute m node time ↔ start ≤ time) :
    lookUp estimates node = .ok (some start) := by
  have hlt : node < estimates.length := by
    rw [hest.length_eq]
    exact Chain.lt_of_isInner hinner
  have hentry : estimates[node] = some start := by
    rw [← List.getD_eq_getElem _ none hlt]
    exact Met.eq_some fun time => (hest.met_iff node hknown hfresh time).trans (hleast time)
  rw [lookUp_of_lt hlt, hentry]

/-- Floods from the draft are done at a time and not before it, and each node that
is left executes in them at its estimate. -/
def FloodsAt (m : Model) (d : Draft) (estimates : List (Option Nat)) (least : Nat) : Prop :=
  ∀ left, d.time + left ≤ m.horizon → ∃ result, m.floodFrom left d = .ok result ∧
    (result.isSome = true ↔ least ≤ d.time + left) ∧
    ∀ f, result = some f → m.isDone f = .ok true ∧
      ∀ node, m.chain.isInner node = true → d.executedAt node = none →
        ∃ start, f.executedAt node = some start ∧ lookUp estimates node = .ok (some start)

theorem Consistent.floods_at (h : d.Consistent m) (hm : m.WellFormed) (hquiet : d.Quiet)
    {estimates : List (Option Nat)} (hest : d.Estimated m m.ranks.sequence estimates)
    {least : Nat} (hleast : FinishesAt m d least) : FloodsAt m d estimates least := by
  intro left hend
  obtain ⟨result, hflood, hcompletes⟩ := Consistent.floodFrom_eq hm left d h hquiet hend
  refine ⟨result, hflood, ?_, ?_⟩
  · rw [hcompletes.isSome_iff, hleast (d.time + left)]
    exact (and_iff_right (Nat.le_add_right _ _)).symm
  · rintro f rfl
    have hattains :=
      (Consistent.floodsTo_of_floodFrom hm left d h hquiet hend hflood).attains hm
    obtain ⟨e, he, hends, _, rfl⟩ := hcompletes.settles f rfl
    have hdone : m.isDone e.settled = .ok true := (he.decides_isDone hm).eq_true hends
    refine ⟨hdone, fun node hinner hfresh => ?_⟩
    obtain ⟨start, hexec, hcan⟩ := hattains node hinner hfresh
    exact ⟨start, hexec, hest.lookUp_eq (hm.mem_sequence.2 hinner) hinner hfresh hcan⟩

end Draft

/-- The estimates of a search, in every draft that it may come to between two
steps.  A branch can finish exactly if some run from there is done in time.  Then
floods are done when the forecast says, and no earlier; and each node that is
left executes in them at its estimate. -/
theorem canFinish_exact {p : Problem} {bank : RuleBank} {m : Model} (h : p.model bank = .ok m)
    {blank d : Draft} (hblank : m.blankDraft = .ok blank)
    (hrun : Relation.ReflTransGen (Draft.Proceeds m) blank d) :
    ∃ estimates completion possible, m.soonestExecutions d = .ok estimates ∧
      m.soonestCompletion d = .ok completion ∧ m.canFinish d = .ok possible ∧
      (possible = true ↔
        ∃ e, Draft.Visits m d e ∧ m.isDone e = .ok true ∧ e.time ≤ m.horizon) ∧
      (possible = true → ∃ least, completion = some least ∧ d.time ≤ least ∧
        least ≤ m.horizon ∧ Draft.FloodsAt m d estimates least) := by
  have hm := wellFormed_of_model h
  have hs := storable_of_model h
  have hstart := Draft.blankDraft_eq hs
  rw [hblank] at hstart
  cases hstart
  obtain ⟨hd, hquiet⟩ :=
    Draft.consistent_of_proceeds hrun hm (Draft.consistent_start hs.horizon_lt)
      (Draft.quiet_start m)
  obtain ⟨estimates, hestimates, _, hest⟩ := hd.soonestExecutions_eq hm hquiet
  obtain ⟨completion, hcompletion, hmet⟩ := hd.soonestCompletion_eq hm hquiet
  obtain ⟨possible, hpossible, hcan⟩ := hd.decides_canFinish hm hquiet
  refine ⟨estimates, completion, possible, hestimates, hcompletion, hpossible, ?_, ?_⟩
  · constructor
    · intro hyes
      have hleft : d.time + (m.horizon - d.time) = m.horizon :=
        Nat.add_sub_of_le hd.time_le
      exact Draft.Consistent.exists_visit hm _ d hd hquiet hleft (hcan.1 hyes)
    · intro hcomplete
      obtain ⟨e, hvisits, hdone, _⟩ := hcomplete
      exact hcan.2 (hvisits.canFinish hm hd hquiet hdone)
  · intro hyes
    obtain ⟨least, rfl, hle⟩ := (hmet m.horizon).2 ⟨hd.time_le, hcan.1 hyes⟩
    simp only [Met.some_iff] at hmet
    exact ⟨least, rfl, ((hmet least).1 (Nat.le_refl _)).1, hle, hd.floods_at hm hquiet hest hmet⟩

/-- The meeting after its first step, in which the endpoints were told nothing and
the middle was told twice by node 1.  Two more steps are enough, and one is not. -/
theorem repeatedMeeting_canFinish : ∃ d, meeting.model .standard = .ok meetingModel ∧
    meetingModel.blankDraft = .ok (.start meetingModel) ∧
    Relation.ReflTransGen (Draft.Proceeds meetingModel) (.start meetingModel) d ∧
    d.time = 1 ∧ meetingModel.canFinish d = .ok true ∧
    meetingModel.soonestCompletion d = .ok (some 3) ∧
    (∃ e, Draft.Visits meetingModel d e ∧ meetingModel.isDone e = .ok true ∧ e.time ≤ 3) ∧
    meetingModel.floodFrom 1 d = .ok none ∧
    ∃ f, meetingModel.floodFrom 2 d = .ok (some f) ∧ meetingModel.isDone f = .ok true := by
  have hbuilt : meeting.model .standard = .ok meetingModel := rfl
  obtain ⟨d, hstep, htime, hcan, hsoonest⟩ : ∃ d,
      Draft.Proceeds meetingModel (.start meetingModel) d ∧ d.time = 1 ∧
        meetingModel.canFinish d = .ok true ∧
        meetingModel.soonestCompletion d = .ok (some 3) :=
    ⟨_, @Draft.Proceeds.step _ _ _ _ _ [(1, 2), (3, 2), (1, 2)] rfl
      (.cons rfl rfl (.cons rfl rfl (.cons rfl rfl .nil))) rfl, rfl, by decide +kernel,
      by decide +kernel⟩
  have hrun := Relation.ReflTransGen.single hstep
  obtain ⟨_, completion, possible, _, hcompletion, hpossible, hvisit, hfloods⟩ :=
    canFinish_exact hbuilt rfl hrun
  rw [hcan] at hpossible
  cases hpossible
  rw [hsoonest] at hcompletion
  cases hcompletion
  obtain ⟨least, hleast, _, _, hflood⟩ := hfloods rfl
  cases hleast
  obtain ⟨short, hshort, hnone, _⟩ := hflood 1 (by rw [htime]; decide)
  obtain ⟨long, hlong, hsome, hdone⟩ := hflood 2 (by rw [htime]; decide)
  rw [htime] at hnone hsome
  obtain ⟨f, rfl⟩ := Option.isSome_iff_exists.1 (hsome.2 (by decide))
  have hfailed : short = none :=
    Option.not_isSome_iff_eq_none.1 fun hyes => absurd (hnone.1 hyes) (by decide)
  exact ⟨d, hbuilt, rfl, hrun, htime, hcan, hsoonest, hvisit.1 rfl, hfailed ▸ hshort, f, hlong,
    (hdone f rfl).1⟩

end ChainPropagation
