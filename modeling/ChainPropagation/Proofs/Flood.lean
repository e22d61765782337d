import ChainPropagation.Proofs.Reach
import ChainPropagation.Flood

/-!
# Flooding attains the estimates

Whatever is sent in a step, nothing is reached after it that was not reached
before (`Opens.reaches_of_delivered`).  One step of a flood loses nothing either
(`Opens.reaches_delivered`): whatever could be held at the next time is held
then.  So a flood completes by a time exactly if its draft can finish by then
(`Consistent.floodFrom_eq`), and it never meets a fault.

Together with the fact that no schedule is faster this settles when a model has
a schedule at all: if and only if the flood completes, if and only if there is
no obstacle (`obstacle_exact`).

## Main results

* `Consistent.floodFrom_eq` — what a flood comes to.
* `flood_eq`, `obstacle_eq` — the flood and the obstacle of a model.
* `obstacle_exact` — the same for a built model and the verdict on schedules.
-/

namespace ChainPropagation

/-! ## The recursion of a flood -/

namespace Model

variable {m : Model} {d e f g : Draft}

theorem floodFrom_of_finished (hbegin : m.beginStep d = .ok (.finished f)) (left : Nat) :
    m.floodFrom left d = .ok (some f) := by
  cases left with
  | zero =>
      rw [floodFrom, hbegin]
      rfl
  | succ left =>
      rw [floodFrom, hbegin]
      rfl

theorem floodFrom_zero_of_continuing (hbegin : m.beginStep d = .ok (.continuing e)) :
    m.floodFrom 0 d = .ok none := by
  rw [floodFrom, hbegin]
  rfl

theorem floodFrom_succ_of_continuing (hbegin : m.beginStep d = .ok (.continuing e))
    (hflood : m.floodOnce e = .ok f) (hpass : f.passTime = .ok g) (left : Nat) :
    m.floodFrom (left + 1) d = m.floodFrom left g := by
  rw [floodFrom, hbegin]
  show (do let f ← m.floodOnce e; m.floodFrom left (← f.passTime)) = _
  rw [hflood, ok_bind, hpass, ok_bind]

end Model

namespace Draft

variable {m : Model} {d e f : Draft}

/-! ## Messages of one step -/

/-- The draft after some more messages of the present time. -/
structure Spreads (m : Model) (d e : Draft) : Prop where
  consistent : e.Consistent m
  time_eq : e.time = d.time
  holding_eq : ∀ node, e.holding node = d.holding node
  executedAt_eq : ∀ node, e.executedAt node = d.executedAt node
  next_mono : ∀ node result, (d.holdingNext node).contains result = true →
    (e.holdingNext node).contains result = true
  next_from : ∀ node result, (e.holdingNext node).contains result = true →
    (d.holdingNext node).contains result = true ∨
      ∃ other, m.chain.sideBySide other node = true ∧ (d.holding other).contains result = true

namespace Spreads

theorem refl (h : d.Consistent m) : Spreads m d d :=
  { consistent := h
    time_eq := rfl
    holding_eq := fun _ => rfl
    executedAt_eq := fun _ => rfl
    next_mono := fun _ _ hnext => hnext
    next_from := fun _ _ hnext => .inl hnext }

theorem trans (h : Spreads m d e) (hlater : Spreads m e f) : Spreads m d f :=
  { consistent := hlater.consistent
    time_eq := hlater.time_eq.trans h.time_eq
    holding_eq := fun node => (hlater.holding_eq node).trans (h.holding_eq node)
    executedAt_eq := fun node => (hlater.executedAt_eq node).trans (h.executedAt_eq node)
    next_mono := fun node result hnext =>
      hlater.next_mono node result (h.next_mono node result hnext)
    next_from := by
      intro node result hnext
      rcases hlater.next_from node result hnext with hbefore | ⟨other, hbeside, hheld⟩
      · exact h.next_from node result hbefore
      · rw [h.holding_eq] at hheld
        exact .inr ⟨other, hbeside, hheld⟩ }

end Spreads

theorem Consistent.spreads_sent (h : d.Consistent m) {sender receiver : Nat}
    (hbeside : m.chain.sideBySide sender receiver = true)
    (hsome : ∃ result, (d.holding sender).contains result = true) :
    Spreads m d (d.sent sender receiver) :=
  { consistent := h.sent hbeside hsome
    time_eq := rfl
    holding_eq := fun _ => rfl
    executedAt_eq := fun _ => rfl
    next_mono := fun node result hnext => (h.holdingNext_sent hbeside node result).2 (.inl hnext)
    next_from := by
      intro node result hnext
      rcases (h.holdingNext_sent hbeside node result).1 hnext with hbefore | ⟨rfl, hheld⟩
      · exact .inl hbefore
      · exact .inr ⟨sender, hbeside, hheld⟩ }

/-- The draft after some more messages, none of which was useless. -/
structure Grows (m : Model) (d e : Draft) : Prop extends Spreads m d e where
  sound : d.Sound m → e.Sound m

namespace Grows

theorem refl (h : d.Consistent m) : Grows m d d :=
  { toSpreads := .refl h
    sound := id }

theorem trans (h : Grows m d e) (hlater : Grows m e f) : Grows m d f :=
  { toSpreads := h.toSpreads.trans hlater.toSpreads
    sound := fun hsound => hlater.sound (h.sound hsound) }

end Grows

theorem Consistent.grows_sent (h : d.Consistent m) {sender receiver : Nat}
    (huseful : d.Useful m sender receiver) : Grows m d (d.sent sender receiver) :=
  { toSpreads := h.spreads_sent huseful.beside huseful.some_held
    sound := fun hsound => (hsound.send_eq huseful).2 }

/-- Where a message is not worth sending, the receiver is told everything
already. -/
theorem told_of_not_useful {sender receiver : Nat}
    (hbeside : m.chain.sideBySide sender receiver = true)
    (hnot : ¬ d.Useful m sender receiver) {result : Nat}
    (hheld : (d.holding sender).contains result = true) :
    (d.holdingNext receiver).contains result = true := by
  by_cases hnext : (d.holdingNext receiver).contains result = true
  · exact hnext
  · exact absurd ⟨hbeside, ⟨result, hheld⟩, .inl ⟨result, hheld, hnext⟩⟩ hnot

theorem Consistent.sendIfUseful_eq (h : d.Consistent m) (hm : m.WellFormed) (link : Nat × Nat) :
    ∃ e, m.sendIfUseful d link = .ok e ∧ Grows m d e ∧
      (m.chain.sideBySide link.1 link.2 = true → ∀ result,
        (d.holding link.1).contains result = true →
        (e.holdingNext link.2).contains result = true) := by
  by_cases huseful : d.Useful m link.1 link.2
  · refine ⟨d.sent link.1 link.2, ?_, h.grows_sent huseful, fun hbeside result hheld => ?_⟩
    · unfold Model.sendIfUseful
      rw [(h.decides_isUseful hm _ _).eq_true huseful]
      exact h.send_eq huseful.beside
    · exact (h.holdingNext_sent hbeside link.2 result).2 (.inr ⟨rfl, hheld⟩)
  · refine ⟨d, ?_, .refl h, fun hbeside result hheld => ?_⟩
    · unfold Model.sendIfUseful
      rw [(h.decides_isUseful hm _ _).eq_false huseful]
      rfl
    · exact told_of_not_useful hbeside huseful hheld

theorem Consistent.foldlM_sendIfUseful (hm : m.WellFormed) (links : List (Nat × Nat)) :
    ∀ d : Draft, d.Consistent m → ∃ e, links.foldlM m.sendIfUseful d = .ok e ∧ Grows m d e ∧
      ∀ link ∈ links, m.chain.sideBySide link.1 link.2 = true → ∀ result,
        (d.holding link.1).contains result = true →
        (e.holdingNext link.2).contains result = true := by
  induction links with
  | nil =>
      intro d h
      exact ⟨d, rfl, .refl h, fun link hlink => by cases hlink⟩
  | cons link links ih =>
      intro d h
      obtain ⟨e, hsend, hgrows, htold⟩ := h.sendIfUseful_eq hm link
      obtain ⟨f, hfold, hmore, hrest⟩ := ih e hgrows.consistent
      refine ⟨f, ?_, hgrows.trans hmore, fun other hother hbeside result hheld => ?_⟩
      · rw [List.foldlM_cons, hsend]
        exact hfold
      · rcases List.mem_cons.1 hother with rfl | hother
        · exact hmore.next_mono _ _ (htold hbeside result hheld)
        · exact hrest other hother hbeside result (by rw [hgrows.holding_eq]; exact hheld)

/-- A flooded step: every node is told all that the nodes beside it hold. -/
structure Flooded (m : Model) (d e : Draft) : Prop extends Grows m d e where
  tells : ∀ node other, m.chain.sideBySide node other = true → ∀ result,
    (d.holding node).contains result = true → (e.holdingNext other).contains result = true

theorem Consistent.floodOnce_eq (h : d.Consistent m) (hm : m.WellFormed)
    (hlt : d.time < m.horizon) : ∃ e, m.floodOnce d = .ok e ∧ Flooded m d e := by
  obtain ⟨links, hlinks, _, hmem⟩ := h.usefulLinks_eq hm
  obtain ⟨e, hfold, hgrows, htold⟩ := foldlM_sendIfUseful hm links d h
  refine ⟨e, by rw [Model.floodOnce, hlinks]; exact hfold, ?_⟩
  exact
    { toGrows := hgrows
      tells := by
        intro node other hbeside result hheld
        by_cases hlink : (node, other) ∈ links
        · exact htold (node, other) hlink hbeside result hheld
        · have hnot : ¬ d.Useful m node other := fun huseful =>
            hlink ((hmem node other).2 ⟨hlt, huseful⟩)
          exact hgrows.next_mono _ _ (told_of_not_useful hbeside hnot hheld) }

/-! ## One step of time -/

/-- A node that may execute can do so now. -/
theorem Ready.canExecute {node : Nat} (hready : d.Ready m node) : d.CanExecute m node d.time :=
  { inner := hready.inner
    fresh := hready.fresh
    at_once := hready.at_once
    now := Nat.le_refl _
    waits := fun other hwaits => .held (hready.holds other hwaits) (Nat.le_refl _) }

/-- A node of rank 0 that can execute at some time can do so now. -/
theorem CanExecute.rank_ne_zero (hm : m.WellFormed) {node time : Nat}
    (hcan : d.CanExecute m node time) (hnot : ¬ d.Ready m node) : m.rank node ≠ 0 :=
  fun hzero => hnot
    { inner := hcan.inner
      fresh := hcan.fresh
      at_once := hcan.at_once
      holds := fun _ hwaits => absurd hwaits (hm.not_waits_of_rank_zero hzero) }

/-- What is held after the executions can be reached now. -/
theorem Opens.reaches_of_contains (hopens : Opens m d (d.Ready m) e) {node result : Nat}
    (hheld : (e.holding node).contains result = true) : d.Reaches m node result d.time := by
  rcases (hopens.contains_holding node result).1 hheld with hold | ⟨rfl, hready⟩
  · exact .held hold (Nat.le_refl _)
  · exact hready.canExecute.reaches

/-- What can be reached now is held after the executions. -/
theorem Opens.contains_of_reaches (hopens : Opens m d (d.Ready m) e) {node result time : Nat}
    (h : d.Reaches m node result time) (hnow : time = d.time) :
    (e.holding node).contains result = true := by
  induction h with
  | held holds _ => exact hopens.mono holds
  | @executes node time inner fresh at_once _ _ ih =>
      refine (hopens.contains_holding node node).2 (.inr ⟨rfl, inner, fresh, at_once, ?_⟩)
      intro other hwaits
      rcases (hopens.contains_holding node other).1 (ih other hwaits hnow) with hheld | ⟨rfl, _⟩
      · exact hheld
      · exact absurd hwaits (Model.WellFormed.not_waits_self node)
  | told _ holds _ =>
      have hpast := holds.now_le
      omega

theorem Opens.time_delivered {who : Nat → Prop} (hopens : Opens m d who e)
    (hspreads : Spreads m e f) : f.delivered.time = d.time + 1 :=
  congrArg (· + 1) (hspreads.time_eq.trans hopens.time_eq)

/-- Whatever is sent, what can be reached after a step could be reached before
it. -/
theorem Opens.reaches_of_delivered (hopens : Opens m d (d.Ready m) e) (hquiet : d.Quiet)
    (hspreads : Spreads m e f) {node result time : Nat}
    (h : f.delivered.Reaches m node result time) : d.Reaches m node result time := by
  have htime := hopens.time_delivered hspreads
  induction h with
  | held holds now =>
      rw [hspreads.consistent.holding_delivered_eq] at holds
      rcases hspreads.next_from _ _ holds with hnext | ⟨other, hbeside, hheld⟩
      · rw [(hopens.quiet hquiet).contains_holdingNext] at hnext
        exact (hopens.reaches_of_contains hnext).mono (by omega)
      · exact (Reaches.told hbeside (hopens.reaches_of_contains hheld)).mono (by omega)
  | @executes node time inner fresh at_once now _ ih =>
      have hfresh : d.executedAt node = none :=
        hopens.fresh_before ((hspreads.executedAt_eq node).symm.trans fresh)
      refine .executes inner hfresh (fun hzero => ?_) (by omega) ih
      have hstart := at_once hzero
      omega
  | told beside _ ih => exact .told beside ih

/-- What could be reached later can still be reached after a flooded step. -/
theorem Opens.reaches_delivered (hm : m.WellFormed) (hopens : Opens m d (d.Ready m) e)
    (hflood : Flooded m e f) {node result time : Nat} (h : d.Reaches m node result time)
    (hlater : d.time < time) : f.delivered.Reaches m node result time := by
  have htime := hopens.time_delivered hflood.toSpreads
  have hkept : ∀ {at_ result : Nat}, (e.holding at_).contains result = true →
      (f.delivered.holding at_).contains result = true := by
    intro at_ result hheld
    rw [hflood.consistent.holding_delivered_eq]
    exact held_next (by rw [hflood.holding_eq]; exact hheld)
  induction h with
  | held holds now => exact .held (hkept (hopens.mono holds)) (by omega)
  | @executes node time inner fresh at_once now waits ih =>
      by_cases hready : d.Ready m node
      · have hown := (hopens.contains_holding node node).2 (.inr ⟨rfl, hready⟩)
        exact .held (hkept hown) (by omega)
      · have hfresh : f.delivered.executedAt node = none := by
          show f.executedAt node = none
          rw [hflood.executedAt_eq]
          exact hopens.fresh fresh hready
        have hrank := CanExecute.rank_ne_zero hm ⟨inner, fresh, at_once, now, waits⟩ hready
        exact .executes inner hfresh (fun hzero => absurd hzero hrank) (by omega)
          fun other hwaits => ih other hwaits hlater
  | @told node other result time beside holds ih =>
      by_cases hnow : time = d.time
      · have htold := hflood.tells node other beside result (hopens.contains_of_reaches holds hnow)
        rw [← hflood.consistent.holding_delivered_eq] at htold
        exact .held htold (by omega)
      · have hpast := holds.now_le
        exact .told beside (ih (by omega))

theorem Opens.canFinishBy_of_delivered (hopens : Opens m d (d.Ready m) e) (hquiet : d.Quiet)
    (hspreads : Spreads m e f) {time : Nat} (hcan : f.delivered.CanFinishBy m time) :
    d.CanFinishBy m time := by
  intro result hinner
  obtain ⟨hfirst, hlast⟩ := hcan result hinner
  exact ⟨hopens.reaches_of_delivered hquiet hspreads hfirst,
    hopens.reaches_of_delivered hquiet hspreads hlast⟩

theorem Opens.canFinishBy_delivered (hm : m.WellFormed) (hopens : Opens m d (d.Ready m) e)
    (hflood : Flooded m e f) {time : Nat} (hcan : d.CanFinishBy m time) (hlt : d.time < time) :
    f.delivered.CanFinishBy m time := by
  intro result hinner
  obtain ⟨hfirst, hlast⟩ := hcan result hinner
  exact ⟨hopens.reaches_delivered hm hflood hfirst hlt,
    hopens.reaches_delivered hm hflood hlast hlt⟩

/-- A draft can finish now exactly if its executions are all that it needs. -/
theorem Opens.endsHold_iff_canFinishBy (hopens : Opens m d (d.Ready m) e) :
    e.EndsHold m ↔ d.CanFinishBy m d.time := by
  constructor
  · intro hends result hinner
    obtain ⟨hfirst, hlast⟩ := hends result hinner
    exact ⟨hopens.reaches_of_contains hfirst, hopens.reaches_of_contains hlast⟩
  · intro hcan result hinner
    obtain ⟨hfirst, hlast⟩ := hcan result hinner
    exact ⟨hopens.contains_of_reaches hfirst rfl, hopens.contains_of_reaches hlast rfl⟩

/-! ## A whole flood -/

/-- What a flood may come to from a draft by a time: a draft whose endpoints hold
everything, settled, or nothing if there is no such draft to be reached by then.
The coin of a dive changes nothing about it. -/
structure Completes (m : Model) (d : Draft) (time : Nat) (result : Option Draft) : Prop where
  settles : ∀ f, result = some f →
    ∃ e : Draft, e.Consistent m ∧ e.EndsHold m ∧ (d.Sound m → e.Sound m) ∧ f = e.settled
  isSome_iff : result.isSome = true ↔ d.CanFinishBy m time

theorem CanFinishBy.mono {time later : Nat} (hcan : d.CanFinishBy m time) (hle : time ≤ later) :
    d.CanFinishBy m later := fun result hinner =>
  ⟨(hcan result hinner).1.mono hle, (hcan result hinner).2.mono hle⟩

theorem Opens.completes_of_endsHold (hopens : Opens m d (d.Ready m) e) (hquiet : d.Quiet)
    (hends : e.EndsHold m) {time : Nat} (hle : d.time ≤ time) :
    Completes m d time (some e.settled) :=
  { settles := by
      intro f hf
      cases hf
      exact ⟨e, hopens.consistent, hends, hopens.sound hquiet, rfl⟩
    isSome_iff := iff_of_true rfl ((hopens.endsHold_iff_canFinishBy.1 hends).mono hle) }

/-- When the time is over there is nothing more to come. -/
theorem Opens.completes_none (hopens : Opens m d (d.Ready m) e) (hends : ¬ e.EndsHold m) :
    Completes m d d.time none :=
  { settles := nofun
    isSome_iff := iff_of_false nofun fun hcan => hends (hopens.endsHold_iff_canFinishBy.2 hcan) }

theorem Completes.of_next {time : Nat} {result : Option Draft} (h : Completes m f time result)
    (hsound : d.Sound m → f.Sound m) (hcan : f.CanFinishBy m time ↔ d.CanFinishBy m time) :
    Completes m d time result :=
  { settles := by
      intro leaf hleaf
      obtain ⟨e, hconsistent, hends, hkeeps, hsettled⟩ := h.settles leaf hleaf
      exact ⟨e, hconsistent, hends, fun hd => hkeeps (hsound hd), hsettled⟩
    isSome_iff := h.isSome_iff.trans hcan }

theorem Completes.finished {time : Nat} {result : Option Draft} (h : Completes m d time result)
    (hd : d.Sound m) : ∀ f, result = some f → f.Finished m := by
  intro f hf
  obtain ⟨e, _, hends, hsound, rfl⟩ := h.settles f hf
  exact (hsound hd).finished hends

/-- From the blank draft it comes to something exactly if there is a lawful
schedule. -/
theorem Completes.isSome_iff_lawful {result : Option Draft} (h : Completes m d m.horizon result)
    (hd : d.Sound m) (hm : m.WellFormed) (htime : d.time = 0) :
    result.isSome = true ↔ ∃ s, m.Lawful s := by
  constructor
  · intro hdone
    obtain ⟨f, hf⟩ := Option.isSome_iff_exists.1 hdone
    exact ⟨f.schedule, (h.finished hd f hf).lawful⟩
  · intro hsome
    obtain ⟨s, hlaw⟩ := hsome
    exact h.isSome_iff.2
      ((ahead_zero d s).canFinish hd.toConsistent hm hlaw (by omega) (Nat.zero_le _))

/-- One step of a flood, from the draft `d` at the beginning of the step. -/
theorem Opens.flood_eq (hm : m.WellFormed) (hopens : Opens m d (d.Ready m) e) (hquiet : d.Quiet)
    (hlt : d.time < m.horizon) : ∃ f, m.floodOnce e = .ok f ∧ Flooded m e f ∧
      f.passTime = .ok f.delivered ∧ f.delivered.Consistent m ∧ f.delivered.Quiet ∧
      f.delivered.time = d.time + 1 ∧ (d.Sound m → f.delivered.Sound m) := by
  have htime := hopens.time_eq
  obtain ⟨f, hflooded, hflood⟩ := hopens.consistent.floodOnce_eq hm (by omega)
  have hearly : f.time < m.horizon := by
    rw [hflood.time_eq]
    omega
  exact ⟨f, hflooded, hflood, hflood.consistent.passTime_eq hearly,
    hflood.consistent.delivered hearly, quiet_delivered f,
    hopens.time_delivered hflood.toSpreads,
    fun hd => (hflood.sound (hopens.sound hquiet hd)).delivered hearly⟩

/-- A flood meets no fault, and completes by a time exactly if its draft can
finish by then. -/
theorem Consistent.floodFrom_eq (hm : m.WellFormed) (left : Nat) : ∀ d : Draft, d.Consistent m →
    d.Quiet → d.time + left ≤ m.horizon →
    ∃ result, m.floodFrom left d = .ok result ∧ Completes m d (d.time + left) result := by
  induction left with
  | zero =>
      intro d h hquiet _
      obtain ⟨e, hopens, ⟨hends, hbegin⟩ | ⟨hends, hbegin⟩⟩ := h.beginStep_eq hm hquiet
      · exact ⟨some e.settled, Model.floodFrom_of_finished hbegin 0,
          hopens.completes_of_endsHold hquiet hends (Nat.le_refl _)⟩
      · exact ⟨none, Model.floodFrom_zero_of_continuing hbegin, hopens.completes_none hends⟩
  | succ left ih =>
      intro d h hquiet hend
      obtain ⟨e, hopens, ⟨hends, hbegin⟩ | ⟨hends, hbegin⟩⟩ := h.beginStep_eq hm hquiet
      · exact ⟨some e.settled, Model.floodFrom_of_finished hbegin (left + 1),
          hopens.completes_of_endsHold hquiet hends (by omega)⟩
      · obtain ⟨f, hflooded, hflood, hpass, hf, hstill, htime, hsound⟩ :=
          hopens.flood_eq hm hquiet (by omega)
        obtain ⟨result, hrest, hcompletes⟩ := ih f.delivered hf hstill (by omega)
        rw [show f.delivered.time + left = d.time + (left + 1) by omega] at hcompletes
        -- a flooded step neither gains nor loses anything that takes more time than now
        have hcan : f.delivered.CanFinishBy m (d.time + (left + 1)) ↔
            d.CanFinishBy m (d.time + (left + 1)) :=
          ⟨hopens.canFinishBy_of_delivered hquiet hflood.toSpreads,
            fun hcan => hopens.canFinishBy_delivered hm hflood hcan (by omega)⟩
        refine ⟨result, ?_, hcompletes.of_next hsound hcan⟩
        rw [Model.floodFrom_succ_of_continuing hbegin hflooded hpass]
        exact hrest

end Draft

namespace Model

variable {m : Model}

/-! ## Whether there is a schedule -/

/-- The flood of a model completes exactly if there is a lawful schedule. -/
theorem flood_eq (hm : m.WellFormed) (hs : m.Storable) : ∃ result, m.flood = .ok result ∧
    (∀ d, result = some d → d.Finished m) ∧
      (result.isSome = true ↔ ∃ s, m.Lawful s) := by
  obtain ⟨blank, hblank, hsound, hquiet, htime, _⟩ := Draft.blank_sound hs
  obtain ⟨result, hflood, hcompletes⟩ := Draft.Consistent.floodFrom_eq hm m.horizon blank
    hsound.toConsistent hquiet (by omega)
  rw [htime, Nat.zero_add] at hcompletes
  refine ⟨result, ?_, hcompletes.finished hsound, hcompletes.isSome_iff_lawful hsound hm htime⟩
  unfold flood
  rw [hblank]
  exact hflood

/-- A lawful schedule needs time for the result beside one endpoint to get to
the other one. -/
theorem crossing_le_of_lawful {s : Schedule} (hm : m.WellFormed) (hs : m.Storable)
    (hlaw : m.Lawful s) : m.chain.crossing ≤ m.horizon := by
  have htwo := hm.two_le
  by_cases hinner : m.chain.isInner 1 = true
  · obtain ⟨blank, _, hsound, _, htime, _, hnone⟩ := Draft.blank_sound hs
    have hcan := (Draft.ahead_zero blank s).canFinish hsound.toConsistent hm hlaw (by omega)
      (Nat.zero_le _)
    have hlast := hm.farEnd_lt
    rcases (hsound.toConsistent.reaches_iff hlast).1 (hcan 1 hinner).2 with
      ⟨holder, hheld, _⟩ | ⟨start, _, hle⟩
    · obtain ⟨time, hexec⟩ := hsound.executed_of_contains hheld
      rw [hnone] at hexec
      cases hexec
    · rw [Chain.hops, Chain.farEnd] at hle
      unfold Chain.crossing
      omega
  · rw [Chain.isInner_iff] at hinner
    unfold Chain.crossing
    omega

/-- There is no obstacle exactly if there is a lawful schedule. -/
theorem obstacle_eq (hm : m.WellFormed) (hs : m.Storable) : ∃ result, m.obstacle = .ok result ∧
    (result = none ↔ ∃ s, m.Lawful s) ∧ ∀ reason, result = some reason →
      (reason = .horizonTooSmall ↔ m.horizon < m.chain.crossing) := by
  by_cases hsmall : m.horizon < m.chain.crossing
  · refine ⟨some .horizonTooSmall, by rw [obstacle, if_pos hsmall]; rfl, ?_, fun reason hr => ?_⟩
    · apply iff_of_false nofun
      rintro ⟨s, hlaw⟩
      have hcross := crossing_le_of_lawful hm hs hlaw
      omega
    · cases hr
      exact iff_of_true rfl hsmall
  · obtain ⟨blank, hblank, hsound, hquiet, htime, _⟩ := Draft.blank_sound hs
    have hdecides := hsound.decides_canFinish hm hquiet
    obtain ⟨flooded, _, hcompletes⟩ := Draft.Consistent.floodFrom_eq hm m.horizon blank
      hsound.toConsistent hquiet (by omega)
    rw [htime, Nat.zero_add] at hcompletes
    by_cases hcan : blank.CanFinish m
    · have hlawful :=
        (hcompletes.isSome_iff_lawful hsound hm htime).1 (hcompletes.isSome_iff.2 hcan)
      refine ⟨none, ?_, iff_of_true rfl hlawful, nofun⟩
      unfold obstacle
      rw [if_neg hsmall, hblank]
      simp [hdecides.eq_true hcan]
    · refine ⟨some .rankUnreachable, ?_, iff_of_false nofun ?_, ?_⟩
      · unfold obstacle
        rw [if_neg hsmall, hblank]
        simp [hdecides.eq_false hcan]
      · rintro ⟨s, hlaw⟩
        exact hcan ((Draft.ahead_zero blank s).canFinish hsound.toConsistent hm hlaw (by omega)
          (Nat.zero_le _))
      · intro reason hr
        cases hr
        exact iff_of_false nofun hsmall

end Model

/-- The obstacle of a built model is exact, under the standard bank and under
every bank that adds rules to it: there is none exactly if some schedule is
valid, exactly if the flood completes, and the reason says whether the horizon
is too short to cross the chain. -/
theorem obstacle_exact {p : Problem} {bank : RuleBank} {m : Model}
    (hbank : ∀ rule ∈ RuleBank.standard.rules, rule ∈ bank.rules) (h : p.model bank = .ok m) :
    ∃ obstacle flooded, m.obstacle = .ok obstacle ∧ m.flood = .ok flooded ∧
      (obstacle = none ↔ ∃ s, m.verdict s = .ok []) ∧
      (obstacle = none ↔ flooded.isSome = true) ∧
      ∀ reason, obstacle = some reason →
        (reason = .horizonTooSmall ↔ m.horizon < m.nodes - 2) ∧
        (reason = .rankUnreachable ↔ ¬ m.horizon < m.nodes - 2) := by
  have hm := wellFormed_of_model h
  have hs := storable_of_model h
  rw [← bank_of_model h] at hbank
  have hvalid : (∃ s, m.verdict s = .ok []) ↔ ∃ s, m.Lawful s := by
    constructor
    · intro hsome
      obtain ⟨s, hs'⟩ := hsome
      exact ⟨s, Model.lawful_of_verdict_eq_nil hm hs hbank hs'⟩
    · intro hsome
      obtain ⟨s, hlaw⟩ := hsome
      exact ⟨s, Model.verdict_eq_nil_of_lawful hm hs hlaw⟩
  obtain ⟨obstacle, hobstacle, hnone, hreason⟩ := Model.obstacle_eq hm hs
  obtain ⟨flooded, hflooded, _, hsome⟩ := Model.flood_eq hm hs
  refine ⟨obstacle, flooded, hobstacle, hflooded, hnone.trans hvalid.symm,
    hnone.trans hsome.symm, fun reason hr => ?_⟩
  have hsmall := hreason reason hr
  refine ⟨hsmall, ?_⟩
  rw [← show m.chain.crossing = m.nodes - 2 from rfl, ← hsmall]
  cases reason with
  | horizonTooSmall => decide
  | rankUnreachable => decide

/-- The model of `meeting` under the bank that asks for announcements too. -/
def announcedMeeting : Model :=
  { meetingModel with bank := RuleBank.standard.add .rankZeroAnnounce }

/-- The meeting has no obstacle, as it has a schedule; so its flood completes. -/
theorem announcedMeeting_unobstructed :
    (∀ rule ∈ RuleBank.standard.rules, rule ∈ (RuleBank.standard.add .rankZeroAnnounce).rules) ∧
      meeting.model (RuleBank.standard.add .rankZeroAnnounce) = .ok announcedMeeting ∧
      announcedMeeting.obstacle = .ok none ∧ ∃ d, announcedMeeting.flood = .ok (some d) := by
  have hbank : ∀ rule ∈ RuleBank.standard.rules,
      rule ∈ (RuleBank.standard.add .rankZeroAnnounce).rules := by decide
  have hbuilt : meeting.model (RuleBank.standard.add .rankZeroAnnounce) = .ok announcedMeeting :=
    rfl
  obtain ⟨obstacle, flooded, hobstacle, hflooded, hvalid, hsome, _⟩ := obstacle_exact hbank hbuilt
  have hnone : obstacle = none := hvalid.2 ⟨meetingSchedule, rfl⟩
  obtain ⟨d, hd⟩ := Option.isSome_iff_exists.1 (hsome.1 hnone)
  exact ⟨hbank, hbuilt, hnone ▸ hobstacle, d, hd ▸ hflooded⟩

end ChainPropagation
