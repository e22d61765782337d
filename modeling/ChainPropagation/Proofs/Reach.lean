import ChainPropagation.Proofs.Step

/-!
# What a draft can still reach

`Draft.Reaches` says without any estimate at which times a node can hold a
result at best: everything is passed on at every time, and nodes execute as
soon as they can.  No schedule is faster than that (`Ahead.outruns`), and the
estimates are the least times for which the relation holds
(`Consistent.soonestCompletion_eq`).  So the test whether a draft can still finish
is exact as far as the relation is concerned (`Consistent.decides_canFinish`).

The estimates go through the nodes by rank.  What carries the induction is that
an estimate depends only on those of nodes that come earlier in this order.
-/

namespace ChainPropagation

namespace Draft

variable {m : Model} {d e : Draft}

/-! ## Reaching -/

/-- From the draft on, a node can hold a result at a time. -/
inductive Reaches (m : Model) (d : Draft) : (node result time : Nat) → Prop where
  | held {node result time : Nat} (holds : (d.holding node).contains result = true)
      (now : d.time ≤ time) : Reaches m d node result time
  | executes {node time : Nat} (inner : m.chain.isInner node = true)
      (fresh : d.executedAt node = none) (at_once : m.rank node = 0 → d.time = 0)
      (now : d.time ≤ time) (waits : ∀ other, m.Waits node other → Reaches m d node other time) :
      Reaches m d node node time
  | told {node other result time : Nat} (beside : m.chain.sideBySide node other = true)
      (holds : Reaches m d node result time) : Reaches m d other result (time + 1)

/-- From the draft on, a node can execute at a time. -/
structure CanExecute (m : Model) (d : Draft) (node time : Nat) : Prop where
  inner : m.chain.isInner node = true
  fresh : d.executedAt node = none
  at_once : m.rank node = 0 → d.time = 0
  now : d.time ≤ time
  waits : ∀ other, m.Waits node other → d.Reaches m node other time

/-- Both endpoints can hold every result by a time. -/
def CanFinishBy (m : Model) (d : Draft) (time : Nat) : Prop :=
  ∀ result, m.chain.isInner result = true →
    d.Reaches m 0 result time ∧ d.Reaches m m.chain.farEnd result time

/-- Both endpoints can hold every result by the horizon. -/
def CanFinish (m : Model) (d : Draft) : Prop := d.CanFinishBy m m.horizon

namespace Reaches

variable {node other result time later : Nat}

theorem mono (h : d.Reaches m node result time) (hle : time ≤ later) :
    d.Reaches m node result later := by
  induction h generalizing later with
  | held holds now => exact .held holds (by omega)
  | executes inner fresh at_once now _ ih =>
      exact .executes inner fresh at_once (by omega) fun other hwaits => ih other hwaits hle
  | @told node other result time beside _ ih =>
      obtain ⟨before, rfl⟩ : ∃ before, later = before + 1 := ⟨later - 1, by omega⟩
      exact .told beside (ih (by omega))

/-- Nothing is reached before the time of the draft. -/
theorem now_le (h : d.Reaches m node result time) : d.time ≤ time := by
  induction h with
  | held _ now => exact now
  | executes _ _ _ now _ _ => exact now
  | told _ _ ih => exact Nat.le_succ_of_le ih

/-- A result moves one hop at each time. -/
theorem carried (h : d.Reaches m node result time) (hnode : node < m.chain.nodes)
    (hother : other < m.chain.nodes) :
    d.Reaches m other result (time + Chain.hops node other) := by
  have hright : ∀ steps, node + steps < m.chain.nodes →
      d.Reaches m (node + steps) result (time + steps) := by
    intro steps hlt
    induction steps with
    | zero => exact h
    | succ steps ih =>
        have hbeside : m.chain.sideBySide (node + steps) (node + (steps + 1)) = true :=
          Chain.sideBySide_iff.2 ⟨by omega, hlt, .inl rfl⟩
        exact .told hbeside (ih (by omega))
  have hleft : ∀ steps, steps ≤ node → d.Reaches m (node - steps) result (time + steps) := by
    intro steps hle
    induction steps with
    | zero => exact h
    | succ steps ih =>
        have hbeside : m.chain.sideBySide (node - steps) (node - (steps + 1)) = true :=
          Chain.sideBySide_iff.2 ⟨by omega, by omega, .inr (by omega)⟩
        exact .told hbeside (ih (by omega))
  by_cases hside : node ≤ other
  · have hmoved := hright (other - node) (by omega)
    rw [show node + (other - node) = other by omega] at hmoved
    exact hmoved.mono (by rw [Chain.hops]; omega)
  · have hmoved := hleft (node - other) (by omega)
    rw [show node - (node - other) = other by omega] at hmoved
    exact hmoved.mono (by rw [Chain.hops]; omega)

end Reaches

theorem CanExecute.mono {node time later : Nat} (h : d.CanExecute m node time)
    (hle : time ≤ later) : d.CanExecute m node later :=
  { inner := h.inner
    fresh := h.fresh
    at_once := h.at_once
    now := Nat.le_trans h.now hle
    waits := fun other hwaits => (h.waits other hwaits).mono hle }

theorem CanExecute.reaches {node time : Nat} (h : d.CanExecute m node time) :
    d.Reaches m node node time :=
  .executes h.inner h.fresh h.at_once h.now h.waits

/-- A result comes from a node that has it, or from its own node once that
executes. -/
theorem Consistent.reaches_iff (h : d.Consistent m) {target origin time : Nat}
    (htarget : target < m.chain.nodes) : d.Reaches m target origin time ↔
      (∃ holder, (d.holding holder).contains origin = true ∧
        d.time + Chain.hops holder target ≤ time) ∨
      ∃ start, d.CanExecute m origin start ∧ start + Chain.hops origin target ≤ time := by
  constructor
  · intro hreach
    induction hreach with
    | @held node result time holds now =>
        refine .inl ⟨node, holds, ?_⟩
        unfold Chain.hops
        omega
    | @executes node time inner fresh at_once now waits =>
        refine .inr ⟨time, ⟨inner, fresh, at_once, now, waits⟩, ?_⟩
        unfold Chain.hops
        omega
    | @told node other result time beside _ ih =>
        obtain ⟨hnode, _, hnext⟩ := Chain.sideBySide_iff.1 beside
        have hone : ∀ at_, Chain.hops at_ other ≤ Chain.hops at_ node + 1 := by
          intro at_
          unfold Chain.hops
          omega
        rcases ih hnode with ⟨holder, hheld, hle⟩ | ⟨start, hexec, hle⟩
        · have hfar := hone holder
          exact .inl ⟨holder, hheld, by omega⟩
        · have hfar := hone result
          exact .inr ⟨start, hexec, by omega⟩
  · rintro (⟨holder, hheld, hle⟩ | ⟨start, hexec, hle⟩)
    · have hholder := h.lt_of_holds ((h.contains_holding holder origin).1 hheld)
      exact ((Reaches.held hheld (Nat.le_refl _)).carried hholder htarget).mono hle
    · have harrives := hexec.reaches.carried (Chain.lt_of_isInner hexec.inner) htarget
      exact harrives.mono hle

/-- Somebody holds the result, so its own node does not execute any more. -/
theorem Consistent.reaches_iff_of_held (h : d.Consistent m) {target origin holder time : Nat}
    (htarget : target < m.chain.nodes) (hheld : (d.holding holder).contains origin = true) :
    d.Reaches m target origin time ↔ ∃ holder, (d.holding holder).contains origin = true ∧
      d.time + Chain.hops holder target ≤ time := by
  rw [h.reaches_iff htarget]
  apply or_iff_left
  intro hstarts
  obtain ⟨start, hexec, _⟩ := hstarts
  obtain ⟨done, hdone⟩ := h.executed_of_contains hheld
  rw [hexec.fresh] at hdone
  cases hdone

/-- Nobody holds the result, so it starts from its own node. -/
theorem Consistent.reaches_iff_of_nobody (h : d.Consistent m) {target origin time : Nat}
    (htarget : target < m.chain.nodes)
    (hnobody : ∀ holder, ¬ (d.holding holder).contains origin = true) :
    d.Reaches m target origin time ↔
      ∃ start, d.CanExecute m origin start ∧ start + Chain.hops origin target ≤ time := by
  rw [h.reaches_iff htarget]
  apply or_iff_right
  intro hheld
  obtain ⟨holder, hholds, _⟩ := hheld
  exact hnobody holder hholds

/-! ## No schedule is faster -/

/-- At the beginning of its step a draft knows all that a schedule knows at a
time, but for nodes that execute just then. -/
def Ahead (d : Draft) (s : Schedule) (now : Nat) : Prop :=
  ∀ node result, s.Holds node result now →
    (d.holding node).contains result = true ∨ (node = result ∧ ⟨node, now⟩ ∈ s.executions)

/-- What is told to a node was known before, so it is no execution of now. -/
theorem Ahead.holding {s : Schedule} (hlaw : m.Lawful s) {now : Nat} (hahead : d.Ahead s now)
    {node result before : Nat} (hholds : s.Holds node result now)
    (hold : ∃ other, s.Holds other result before) (hlt : before < now) :
    (d.holding node).contains result = true := by
  rcases hahead node result hholds with hheld | ⟨rfl, hexec⟩
  · exact hheld
  · obtain ⟨other, hother⟩ := hold
    obtain ⟨time, hearlier, hle⟩ := hother.executed
    have hsame := hlaw.orderly.execution_unique hearlier hexec
    omega

/-- What a schedule holds some time later the draft reaches as much time
later. -/
def Outruns (m : Model) (d : Draft) (s : Schedule) (now past : Nat) : Prop :=
  ∀ node result, s.Holds node result (now + past) → d.Reaches m node result (d.time + past)

/-- A message that was sent before is there already, and another one left a
sender that the draft outruns. -/
theorem Ahead.reaches_told {s : Schedule} (hlaw : m.Lawful s) {now upto : Nat}
    (hahead : d.Ahead s now) (hbelow : ∀ past < upto, d.Outruns m s now past)
    {a : Message} {result : Nat} (ha : a ∈ s.messages) (harrived : a.time < now + upto)
    (hcarries : a.payload.contains result = true) (hheld : s.Holds a.sender result a.time) :
    d.Reaches m a.receiver result (d.time + upto) := by
  by_cases hbefore : a.time < now
  · have hholds : s.Holds a.receiver result now := .told ha rfl hbefore hcarries hheld
    have hold := hahead.holding hlaw hholds ⟨a.sender, hheld⟩ hbefore
    exact .held hold (Nat.le_add_right _ _)
  · have hthen : now + (a.time - now) = a.time := by omega
    have hsent : d.Reaches m a.sender result (d.time + (a.time - now)) :=
      hbelow (a.time - now) (by omega) a.sender result (hthen.symm ▸ hheld)
    exact (Reaches.told (hlaw.sideBySide ha) hsent).mono (by omega)

/-- What a node waits for was told to it before it executes. -/
theorem Ahead.reaches_executed {s : Schedule} (hm : m.WellFormed) (hlaw : m.Lawful s)
    {now upto node : Nat} (hahead : d.Ahead s now) (hnow : d.time ≤ now)
    (hbelow : ∀ past < upto, d.Outruns m s now past) (hfresh : d.executedAt node = none)
    (hexec : ⟨node, now + upto⟩ ∈ s.executions) : d.Reaches m node node (d.time + upto) := by
  have hstart : m.rank node = 0 → d.time = 0 := by
    intro hzero
    have hfirst : now + upto = 0 := hlaw.at_once _ hexec hzero
    omega
  refine .executes (hlaw.inner _ hexec) hfresh hstart (Nat.le_add_right _ _) ?_
  intro other hwaits
  cases hlaw.holds_awaited hm hexec hwaits with
  | own _ _ => exact absurd hwaits (Model.WellFormed.not_waits_self node)
  | told sent receives arrived carries held =>
      exact receives ▸ hahead.reaches_told hlaw hbelow sent arrived carries held

/-- No schedule beats the draft that is ahead of it. -/
theorem Ahead.outruns {s : Schedule} (h : d.Consistent m) (hm : m.WellFormed) (hlaw : m.Lawful s)
    {now : Nat} (hahead : d.Ahead s now) (hnow : d.time ≤ now) (past : Nat) :
    d.Outruns m s now past := by
  induction past using Nat.strongRecOn with
  | ind past ih =>
      intro node result hholds
      cases hholds with
      | told sent receives arrived carries held =>
          exact receives ▸ hahead.reaches_told hlaw ih sent arrived carries held
      | @own _ start _ executes done =>
          -- an execution before now is known to the draft, and a later one can be made
          by_cases hdone : (d.holding node).contains node = true
          · exact .held hdone (Nat.le_add_right _ _)
          · have hlate : now ≤ start := by
              apply Nat.not_lt.1
              intro hearly
              have hholds : s.Holds node node now := .own executes (Nat.le_of_lt hearly)
              exact hdone (hahead.holding hlaw hholds ⟨node, .own executes (Nat.le_refl _)⟩ hearly)
            obtain ⟨upto, rfl⟩ := Nat.exists_eq_add_of_le hlate
            have hstart := hahead.reaches_executed hm hlaw hnow
              (fun below hlt => ih below (by omega)) (h.fresh_of_not_contains hdone) executes
            exact hstart.mono (by omega)

/-- So a draft that is ahead of a lawful schedule can finish. -/
theorem Ahead.canFinish {s : Schedule} (h : d.Consistent m) (hm : m.WellFormed) (hlaw : m.Lawful s)
    {now : Nat} (hahead : d.Ahead s now) (hnow : d.time ≤ now) (hle : now ≤ m.horizon) :
    d.CanFinish m := by
  have hend : ∀ node result, s.Holds node result m.horizon →
      d.Reaches m node result m.horizon := by
    intro node result hholds
    have hleft : now + (m.horizon - now) = m.horizon := by omega
    have hreach := hahead.outruns h hm hlaw hnow (m.horizon - now) node result
      (hleft.symm ▸ hholds)
    exact hreach.mono (by omega)
  intro result hinner
  obtain ⟨hfirst, hlast⟩ := hlaw.complete result hinner
  exact ⟨hend _ _ hfirst, hend _ _ hlast⟩

/-- Nobody is told anything before time 0. -/
theorem ahead_zero (d : Draft) (s : Schedule) : d.Ahead s 0 := by
  intro node result hholds
  cases hholds with
  | own executes done =>
      have hzero := Nat.le_zero.1 done
      exact .inr ⟨rfl, hzero ▸ executes⟩
  | told _ _ arrived _ _ => omega

end Draft

/-! ## Estimates -/

/-- An estimate that does not exceed a time. -/
def Met (estimate : Option Nat) (time : Nat) : Prop := ∃ e, estimate = some e ∧ e ≤ time

namespace Met

variable {a b : Option Nat} {time : Nat}

@[simp] theorem some_iff {e : Nat} : Met (some e) time ↔ e ≤ time := by simp [Met]

@[simp] theorem none_iff : Met none time ↔ False := by simp [Met]

theorem eq_some {e : Option Nat} {least : Nat} (h : ∀ time, Met e time ↔ least ≤ time) :
    e = some least := by
  obtain ⟨time, rfl, hle⟩ := (h least).2 (Nat.le_refl _)
  have hge := (h time).1 (some_iff.2 (Nat.le_refl _))
  rw [Nat.le_antisymm hle hge]

/-- The later of two times is met when both are. -/
theorem latest_iff : Met (Model.latest a b) time ↔ Met a time ∧ Met b time := by
  cases a with
  | none => simp [Model.latest]
  | some first =>
      cases b with
      | none => simp [Model.latest]
      | some second =>
          show Met (some (max first second)) time ↔ _
          rw [some_iff, some_iff, some_iff]
          exact Nat.max_le

theorem map_add_iff {steps : Nat} :
    Met (a.map (· + steps)) time ↔ ∃ e, Met a e ∧ e + steps ≤ time := by
  cases a with
  | none => simp
  | some start =>
      rw [Option.map_some, some_iff]
      constructor
      · exact fun hle => ⟨start, some_iff.2 (Nat.le_refl _), hle⟩
      · rintro ⟨e, hmet, hle⟩
        have hstart := some_iff.1 hmet
        omega

theorem min?_iff {times : List Nat} : Met times.min? time ↔ ∃ e ∈ times, e ≤ time := by
  cases hmin : times.min? with
  | none =>
      rw [List.min?_eq_none_iff] at hmin
      simp [hmin]
  | some least =>
      obtain ⟨hmem, hleast⟩ := List.min?_eq_some_iff.1 hmin
      rw [some_iff]
      constructor
      · exact fun hle => ⟨least, hmem, hle⟩
      · rintro ⟨e, he, hle⟩
        have hlow := hleast e he
        omega

/-- The latest of several times is met when all are. -/
theorem foldl_latest_iff (estimates : List (Option Nat)) :
    Met (estimates.foldl Model.latest a) time ↔
      Met a time ∧ ∀ estimate ∈ estimates, Met estimate time := by
  induction estimates generalizing a with
  | nil => simp
  | cons estimate estimates ih =>
      rw [List.foldl_cons, ih, latest_iff]
      simp [and_assoc]

end Met

/-- An estimate that meets no fault and is the least time with a property. -/
def Soonest (estimate : Checked (Option Nat)) (holds : Nat → Prop) : Prop :=
  ∃ e, estimate = .ok e ∧ ∀ time, Met e time ↔ holds time

namespace Soonest

variable {α : Type}

/-- The latest of several estimates, asked for one after another. -/
theorem foldlM_latest {ask : α → Checked (Option Nat)} {holds : α → Nat → Prop}
    {entries : List α} (h : ∀ a ∈ entries, Soonest (ask a) (holds a)) (start : Option Nat) :
    Soonest (entries.foldlM (fun time a => do return Model.latest time (← ask a)) start)
      fun time => Met start time ∧ ∀ a ∈ entries, holds a time := by
  induction entries generalizing start with
  | nil => exact ⟨start, rfl, by simp⟩
  | cons a entries ih =>
      obtain ⟨e, hask, hholds⟩ := h a (by simp)
      obtain ⟨latest, hfold, hall⟩ := ih (fun b hb => h b (by simp [hb])) (Model.latest start e)
      refine ⟨latest, ?_, fun time => ?_⟩
      · rw [List.foldlM_cons, hask]
        exact hfold
      · simp only [hall, Met.latest_iff, hholds, and_assoc, List.forall_mem_cons]

theorem mapM_eq {ask : α → Checked (Option Nat)} {holds : α → Nat → Prop} {entries : List α}
    (h : ∀ a ∈ entries, Soonest (ask a) (holds a)) :
    ∃ estimates, entries.mapM ask = .ok estimates ∧
      ∀ time, (∀ e ∈ estimates, Met e time) ↔ ∀ a ∈ entries, holds a time := by
  induction entries with
  | nil => exact ⟨[], rfl, by simp⟩
  | cons a entries ih =>
      obtain ⟨e, hask, hholds⟩ := h a (by simp)
      obtain ⟨estimates, hmap, hall⟩ := ih fun b hb => h b (by simp [hb])
      refine ⟨e :: estimates, ?_, fun time => ?_⟩
      · rw [List.mapM_cons, hask, hmap]
        rfl
      · rw [List.forall_mem_cons, List.forall_mem_cons, hholds, hall]

end Soonest

namespace Draft

variable {m : Model} {d : Draft}

/-! ### How the estimates are put together -/

/-- When a result can be at `target` if `holder` passes it on. -/
def relayed (d : Draft) (origin target holder : Nat) : Option Nat :=
  if (d.holding holder).contains origin then some (d.time + Chain.hops holder target)
  else if (d.arriving holder).contains origin then
    some (d.time + 1 + Chain.hops holder target)
  else none

/-- By the estimates, a result can be at a node by a time: from a node that has it or
will have it next, or if there is none, from its own node once that executes. -/
def ComesBy (m : Model) (d : Draft) (estimates : List (Option Nat)) (target origin time : Nat) :
    Prop :=
  (∃ holder < m.chain.nodes, Met (d.relayed origin target holder) time) ∨
    ((∀ holder < m.chain.nodes, d.relayed origin target holder = none) ∧
      ∃ start, Met (estimates.getD origin none) start ∧ start + Chain.hops origin target ≤ time)

/-- By the estimates, a node can execute by a time, or did. -/
def StartsBy (m : Model) (d : Draft) (estimates : List (Option Nat)) (node time : Nat) : Prop :=
  match d.executedAt node with
  | some done => done ≤ time
  | none => (m.rank node = 0 → d.time = 0) ∧ d.time ≤ time ∧
      ∀ other, m.Waits node other → d.ComesBy m estimates node other time

/-! ### None is late -/

/-- When everything is over that an estimate made of so many others can wait for: after
the horizon, for each of them, the length of the chain. -/
def limit (m : Model) (steps : Nat) : Nat := m.horizon + steps * m.chain.nodes

/-- Estimates no one of which is later than the limit. -/
def Timely (m : Model) (steps : Nat) (estimates : List (Option Nat)) : Prop :=
  ∀ node time, estimates.getD node none = some time → time ≤ limit m steps

theorem limit_le_limit {steps more : Nat} (h : steps ≤ more) : limit m steps ≤ limit m more :=
  Nat.add_le_add_left (Nat.mul_le_mul_right _ h) _

/-- A result comes along the chain before the limit. -/
theorem add_hops_lt_limit {steps start node target : Nat} (hstart : start ≤ limit m steps)
    (hnode : node < m.chain.nodes) (htarget : target < m.chain.nodes) :
    start + Chain.hops node target < limit m (steps + 1) := by
  unfold limit at hstart ⊢
  rw [Nat.succ_mul]
  unfold Chain.hops
  omega

/-- The limit is no later than a machine word can tell. -/
theorem Fits.limit_lt (h : d.Fits m.chain.nodes m.horizon) (hm : m.WellFormed) {steps : Nat}
    (hsteps : steps ≤ m.chain.nodes) : limit m steps < wordLimit := by
  have hcap : m.chain.nodes ≤ 64 := hm.le_capacity
  have hprod : steps * m.chain.nodes ≤ 64 * 64 :=
    Nat.mul_le_mul (Nat.le_trans hsteps hcap) hcap
  have hlimit := h.horizon_lt
  unfold limit
  unfold storageLimit at hlimit
  unfold wordLimit
  omega

theorem Fits.relayed_le (h : d.Fits m.chain.nodes m.horizon) {origin target holder time : Nat}
    (htarget : target < m.chain.nodes) (hholder : holder < m.chain.nodes)
    (hrelayed : d.relayed origin target holder = some time) : time ≤ limit m 1 := by
  have hnow := h.time_le
  have hfar : d.time + Chain.hops holder target < limit m 1 :=
    add_hops_lt_limit (Nat.le_trans hnow (Nat.le_add_right _ (0 * m.chain.nodes))) hholder htarget
  unfold relayed at hrelayed
  split at hrelayed
  · cases hrelayed
    omega
  · split at hrelayed <;> cases hrelayed
    omega

/-- What comes at all comes before the limit. -/
theorem Fits.comesBy_limit (h : d.Fits m.chain.nodes m.horizon) {steps : Nat}
    {estimates : List (Option Nat)} (htimely : Timely m steps estimates)
    {origin target time : Nat} (horigin : origin < m.chain.nodes)
    (htarget : target < m.chain.nodes) (hcomes : d.ComesBy m estimates target origin time) :
    d.ComesBy m estimates target origin (limit m (steps + 1)) := by
  rcases hcomes with ⟨holder, hholder, e, hrelayed, _⟩ | ⟨hnone, _, ⟨start, hstart, _⟩, _⟩
  · have hearly := h.relayed_le htarget hholder hrelayed
    exact .inl ⟨holder, hholder, e, hrelayed, Nat.le_trans hearly (limit_le_limit (by omega))⟩
  · have hearly := add_hops_lt_limit (htimely origin start hstart) horigin htarget
    exact .inr ⟨hnone, start, ⟨start, hstart, Nat.le_refl _⟩, Nat.le_of_lt hearly⟩

/-- So does what waits for it. -/
theorem Fits.startsBy_limit (h : d.Fits m.chain.nodes m.horizon) {steps : Nat}
    {estimates : List (Option Nat)} (htimely : Timely m steps estimates)
    {node time : Nat} (hnode : node < m.chain.nodes) (hstarts : d.StartsBy m estimates node time) :
    d.StartsBy m estimates node (limit m (steps + 1)) := by
  unfold StartsBy at hstarts ⊢
  cases hexec : d.executedAt node with
  | some done =>
      exact Nat.le_trans (h.executed_le node done hexec) (Nat.le_add_right _ _)
  | none =>
      rw [hexec] at hstarts
      refine ⟨hstarts.1, Nat.le_trans h.time_le (Nat.le_add_right _ _), fun other hwaits => ?_⟩
      exact h.comesBy_limit htimely (Chain.lt_of_isInner hwaits.1) hnode
        (hstarts.2.2 other hwaits)

/-! ### They are found -/

theorem Fits.arrivalFrom_eq (h : d.Fits m.chain.nodes m.horizon) (hm : m.WellFormed)
    {origin target holder : Nat} (htarget : target < m.chain.nodes)
    (hholder : holder < m.chain.nodes) :
    Model.arrivalFrom d origin target holder = .ok (d.relayed origin target holder) := by
  have hheld := holdingChecked_eq (d := d) (h.size_held.symm ▸ hholder)
  have hinbox := arrivingChecked_eq (d := d) (h.size_inbox.symm ▸ hholder)
  have hword : limit m 1 < wordLimit := h.limit_lt hm hm.first_lt
  have hlate : ∀ time, d.relayed origin target holder = some time → fitting time = .ok time :=
    fun time hrelayed =>
      fitting_of_lt (Nat.lt_of_le_of_lt (h.relayed_le htarget hholder hrelayed) hword)
  unfold Model.arrivalFrom
  rw [hheld, hinbox]
  unfold relayed at hlate ⊢
  by_cases hholds : (d.holding holder).contains origin = true
  · simp only [hholds, if_true, ok_bind] at hlate ⊢
    rw [hlate _ rfl]
    rfl
  · by_cases hcoming : (d.arriving holder).contains origin = true
    · simp only [hholds, hcoming, if_true, ok_bind] at hlate ⊢
      have hnext : d.time + 1 < wordLimit := by
        have hnow := h.time_le
        have hlimit := h.horizon_lt
        unfold storageLimit at hlimit
        unfold wordLimit
        omega
      rw [fitting_of_lt hnext, ok_bind, hlate _ rfl]
      rfl
    · simp [hholds, hcoming]

/-- The least time at which a result comes by the estimates. -/
theorem Fits.soonestArrival_comesBy (h : d.Fits m.chain.nodes m.horizon) (hm : m.WellFormed)
    {steps : Nat} (hsteps : steps < m.chain.nodes) {estimates : List (Option Nat)}
    (htimely : Timely m steps estimates) (hlength : estimates.length = m.chain.nodes)
    {origin target : Nat} (horigin : origin < m.chain.nodes) (htarget : target < m.chain.nodes) :
    Soonest (m.soonestArrival d estimates origin target) (d.ComesBy m estimates target origin) := by
  have harrivals : (List.range m.nodes).mapM (Model.arrivalFrom d origin target) =
      .ok ((List.range m.nodes).map (d.relayed origin target)) :=
    mapM_eq_ok fun holder hholder => h.arrivalFrom_eq hm htarget (List.mem_range.1 hholder)
  have hmem : ∀ time, time ∈ ((List.range m.nodes).map (d.relayed origin target)).filterMap id ↔
      ∃ holder < m.chain.nodes, d.relayed origin target holder = some time := by
    intro time
    simp only [List.mem_filterMap, List.mem_map, List.mem_range, id_eq, exists_eq_right]
    rfl
  unfold Model.soonestArrival
  rw [harrivals, ok_bind]
  cases hmin : (((List.range m.nodes).map (d.relayed origin target)).filterMap id).min? with
  | some least =>
      obtain ⟨holder, hholder, hfrom⟩ := (hmem least).1 (List.min?_eq_some_iff.1 hmin).1
      refine ⟨some least, rfl, fun time => ?_⟩
      rw [← hmin, Met.min?_iff]
      constructor
      · rintro ⟨e, he, hle⟩
        obtain ⟨nearest, hnearest, hfrom⟩ := (hmem e).1 he
        exact .inl ⟨nearest, hnearest, e, hfrom, hle⟩
      · rintro (⟨nearest, hnearest, e, hfrom, hle⟩ | ⟨hnone, _⟩)
        · exact ⟨e, (hmem e).2 ⟨nearest, hnearest, hfrom⟩, hle⟩
        · rw [hnone holder hholder] at hfrom
          cases hfrom
  | none =>
      have hnone : ∀ holder < m.chain.nodes, d.relayed origin target holder = none := by
        intro holder hholder
        cases hfrom : d.relayed origin target holder with
        | none => rfl
        | some time =>
            have hentry := (hmem time).2 ⟨holder, hholder, hfrom⟩
            rw [List.min?_eq_none_iff.1 hmin] at hentry
            cases hentry
      refine ⟨(estimates.getD origin none).map (· + Chain.hops origin target), ?_, fun time => ?_⟩
      · have hlt : origin < estimates.length := hlength ▸ horigin
        rw [lookUp_of_lt hlt, ← List.getD_eq_getElem _ none hlt]
        cases hstart : estimates.getD origin none with
        | none => rfl
        | some start =>
            have hearly := add_hops_lt_limit (htimely origin start hstart) horigin htarget
            have hword := Nat.lt_trans hearly (h.limit_lt hm hsteps)
            show (do return some (← fitting (start + Chain.hops origin target))) = _
            rw [fitting_of_lt hword]
            rfl
      · rw [Met.map_add_iff]
        constructor
        · exact fun hstart => .inr ⟨hnone, hstart⟩
        · rintro (⟨holder, hholder, e, hfrom, _⟩ | ⟨_, hstart⟩)
          · rw [hnone holder hholder] at hfrom
            cases hfrom
          · exact hstart

/-- The least time at which a node can execute by the estimates: when all that it waits
for has arrived, or at time 0 if its rank is 0. -/
theorem Fits.soonestExecution_startsBy (h : d.Fits m.chain.nodes m.horizon) (hm : m.WellFormed)
    {steps : Nat} (hsteps : steps < m.chain.nodes) {estimates : List (Option Nat)}
    (htimely : Timely m steps estimates) (hlength : estimates.length = m.chain.nodes)
    {node : Nat} (hnode : node < m.chain.nodes) :
    Soonest (m.soonestExecution d estimates node) (d.StartsBy m estimates node) := by
  unfold Model.soonestExecution StartsBy
  rw [executedAtChecked_eq (h.size_executed.symm ▸ hnode), ok_bind]
  cases hexec : d.executedAt node with
  | some done => exact ⟨some done, rfl, fun _ => Met.some_iff⟩
  | none =>
      simp only
      rw [hm.rankOf_eq hnode, hm.awaitedBy_eq hnode]
      by_cases hzero : m.rank node = 0
      · refine ⟨if d.time = 0 then some 0 else none, by simp [hzero], fun time => ?_⟩
        have hnothing : ∀ other, ¬ m.Waits node other := fun _ => hm.not_waits_of_rank_zero hzero
        by_cases hstart : d.time = 0
        · simp [hstart, hnothing]
        · simp [hstart, hzero]
      · have hwaits : ∀ other, other ∈ (m.awaited node).toList ↔ m.Waits node other := fun other =>
          NodeSet.mem_toList.trans (hm.contains_awaited hnode)
        obtain ⟨e, hfold, hmet⟩ := Soonest.foldlM_latest
          (fun other hother => h.soonestArrival_comesBy hm hsteps htimely hlength
            (Chain.lt_of_isInner ((hwaits other).1 hother).1) hnode) (some d.time)
        refine ⟨e, by simpa [hzero] using hfold, fun time => ?_⟩
        simp only [hmet, Met.some_iff, hwaits, hzero, false_implies, true_and]

theorem getD_set {α : Type} {entries : List α} {index : Nat} (a other : α) (at_ : Nat)
    (h : index < entries.length) :
    (entries.set index a).getD at_ other = if index = at_ then a else entries.getD at_ other := by
  rw [List.getD_eq_getElem?_getD, List.getElem?_set, if_pos h, List.getD_eq_getElem?_getD]
  exact apply_ite (Option.getD · other) _ _ _

/-- One more estimate, made of those before, is after one more step. -/
theorem Fits.timely_set (h : d.Fits m.chain.nodes m.horizon) {steps : Nat}
    {estimates : List (Option Nat)} (htimely : Timely m steps estimates) {node : Nat}
    {e : Option Nat} (hlt : node < estimates.length) (hnode : node < m.chain.nodes)
    (hmet : ∀ time, Met e time ↔ d.StartsBy m estimates node time) :
    Timely m (steps + 1) (estimates.set node e) := by
  intro other time hother
  rw [getD_set _ _ _ hlt] at hother
  split at hother
  · have hstarts := (hmet time).1 ⟨time, hother, Nat.le_refl _⟩
    have hlimit := (hmet _).2 (h.startsBy_limit htimely hnode hstarts)
    rw [hother] at hlimit
    exact Met.some_iff.1 hlimit
  · exact Nat.le_trans (htimely other time hother) (limit_le_limit (Nat.le_succ _))

/-- What holds of the estimates as long as one node after another is estimated, in the
order of the ranks, holds of all of them.  The induction is on the nodes that are left. -/
theorem Fits.soonestExecutions_induct (h : d.Fits m.chain.nodes m.horizon) (hm : m.WellFormed)
    (holds : List Nat → List (Option Nat) → Prop) (hstart : holds [] (List.replicate m.nodes none))
    (hnext : ∀ known node rest estimates e, m.ranks.sequence = known ++ node :: rest →
      holds known estimates → node < estimates.length →
      (∀ time, Met e time ↔ d.StartsBy m estimates node time) →
      holds (known ++ [node]) (estimates.set node e)) :
    ∃ estimates, m.soonestExecutions d = .ok estimates ∧ estimates.length = m.chain.nodes ∧
      Timely m m.ranks.sequence.length estimates ∧ holds m.ranks.sequence estimates := by
  have hrest : ∀ rest known estimates, m.ranks.sequence = known ++ rest →
      estimates.length = m.chain.nodes → Timely m known.length estimates →
      holds known estimates → ∃ result, rest.foldlM (fun estimates node => do
          Model.replaceEntry estimates node (← m.soonestExecution d estimates node)) estimates =
        .ok result ∧ result.length = m.chain.nodes ∧
        Timely m m.ranks.sequence.length result ∧ holds m.ranks.sequence result := by
    intro rest
    induction rest with
    | nil =>
        intro known estimates hsplit hlength htimely hknown
        rw [List.append_nil] at hsplit
        exact ⟨estimates, rfl, hlength, hsplit ▸ htimely, hsplit ▸ hknown⟩
    | cons node rest ih =>
        intro known estimates hsplit hlength htimely hknown
        have hnode : node < m.chain.nodes :=
          Chain.lt_of_isInner (hm.mem_sequence.1 (by rw [hsplit]; simp))
        have hlt : node < estimates.length := hlength ▸ hnode
        have hsteps : known.length < m.chain.nodes := by
          have hall := hm.length_sequence_lt
          rw [hsplit, List.length_append, List.length_cons] at hall
          omega
        obtain ⟨e, hexec, hmet⟩ := h.soonestExecution_startsBy hm hsteps htimely hlength hnode
        have hmore : Timely m (known ++ [node]).length (estimates.set node e) := by
          rw [List.length_append]
          exact h.timely_set htimely hlt hnode hmet
        obtain ⟨result, hfold, hall⟩ := ih (known ++ [node]) (estimates.set node e)
          (by rw [hsplit, List.append_assoc]; rfl) ((List.length_set).trans hlength) hmore
          (hnext known node rest estimates e hsplit hknown hlt hmet)
        refine ⟨result, ?_, hall⟩
        rw [List.foldlM_cons, hexec]
        show (Model.replaceEntry estimates node e >>= fun estimates => rest.foldlM _ estimates) = _
        unfold Model.replaceEntry
        rw [if_pos hlt]
        exact hfold
  refine hrest m.ranks.sequence [] _ rfl List.length_replicate ?_ hstart
  intro node time hnever
  rw [List.getD_eq_getElem?_getD, List.getElem?_replicate] at hnever
  split at hnever <;> cases hnever

/-- Both endpoints hold everything when the last result has arrived there. -/
theorem soonestCompletion_of_arrivals (hm : m.WellFormed) {estimates : List (Option Nat)}
    (hestimates : m.soonestExecutions d = .ok estimates) {arrives : Nat → Nat → Nat → Prop}
    (hasked : ∀ origin, m.chain.isInner origin = true → ∀ target < m.chain.nodes,
      Soonest (m.soonestArrival d estimates origin target) (arrives target origin)) :
    Soonest (m.soonestCompletion d) fun time => d.time ≤ time ∧
      ∀ origin, m.chain.isInner origin = true →
        arrives 0 origin time ∧ arrives m.chain.farEnd origin time := by
  have hboth : ∀ origin ∈ m.chain.inner, Soonest (do
      let atFirst ← m.soonestArrival d estimates origin 0
      return Model.latest atFirst (← m.soonestArrival d estimates origin m.chain.farEnd))
      fun time => arrives 0 origin time ∧ arrives m.chain.farEnd origin time := by
    intro origin horigin
    have hinner := Chain.mem_inner.1 horigin
    obtain ⟨first, hokFirst, hmetFirst⟩ := hasked origin hinner 0 hm.first_lt
    obtain ⟨last, hokLast, hmetLast⟩ := hasked origin hinner m.chain.farEnd hm.farEnd_lt
    refine ⟨Model.latest first last, ?_, fun time => ?_⟩
    · rw [hokFirst, hokLast]
      rfl
    · rw [Met.latest_iff, hmetFirst, hmetLast]
  obtain ⟨arrivals, hmap, hmet⟩ := Soonest.mapM_eq hboth
  refine ⟨arrivals.foldl Model.latest (some d.time), ?_, fun time => ?_⟩
  · unfold Model.soonestCompletion
    rw [hestimates, Chain.farEndChecked_eq hm.two_le]
    simp only [bind, Except.bind] at hmap ⊢
    rw [hmap]
    rfl
  · rw [Met.foldl_latest_iff, Met.some_iff, hmet]
    simp only [Chain.mem_inner]

/-! ### What they mean with nothing on its way -/

/-- Estimates of when nodes can execute, right for the nodes that are known. -/
structure Estimated (m : Model) (d : Draft) (known : List Nat) (estimates : List (Option Nat)) :
    Prop where
  length_eq : estimates.length = m.chain.nodes
  met_iff : ∀ node ∈ known, d.executedAt node = none →
    ∀ time, Met (estimates.getD node none) time ↔ d.CanExecute m node time

/-- With nothing on its way, a result comes by the estimates when it can be reached. -/
theorem Consistent.comesBy_iff (h : d.Consistent m) (hquiet : d.Quiet)
    {known : List Nat} {estimates : List (Option Nat)} (hest : d.Estimated m known estimates)
    {origin target time : Nat} (hknown : origin ∈ known) (htarget : target < m.chain.nodes) :
    d.ComesBy m estimates target origin time ↔ d.Reaches m target origin time := by
  have hfrom : ∀ holder, d.relayed origin target holder =
      if (d.holding holder).contains origin then some (d.time + Chain.hops holder target)
      else none := by
    intro holder
    rw [relayed, hquiet, NodeSet.contains_empty, if_neg Bool.false_ne_true]
  have hmet : ∀ holder, Met (d.relayed origin target holder) time ↔
      (d.holding holder).contains origin = true ∧ d.time + Chain.hops holder target ≤ time := by
    intro holder
    rw [hfrom]
    split <;> simp [*]
  have hnone : ∀ holder, d.relayed origin target holder = none ↔
      ¬ (d.holding holder).contains origin = true := by
    intro holder
    rw [hfrom]
    split <;> simp [*]
  unfold ComesBy
  simp only [hmet, hnone]
  by_cases hheld : ∃ holder, (d.holding holder).contains origin = true
  · obtain ⟨holder, hholder⟩ := hheld
    have hplace : ∀ {holder}, (d.holding holder).contains origin = true →
        holder < m.chain.nodes := fun hholds => h.lt_of_holds ((h.contains_holding _ _).1 hholds)
    rw [h.reaches_iff_of_held htarget hholder]
    constructor
    · rintro (⟨nearest, _, hnearest⟩ | ⟨hnobody, _⟩)
      · exact ⟨nearest, hnearest⟩
      · exact absurd hholder (hnobody holder (hplace hholder))
    · rintro ⟨nearest, hnearest⟩
      exact .inl ⟨nearest, hplace hnearest.1, hnearest⟩
  · have hnobody : ∀ holder, ¬ (d.holding holder).contains origin = true :=
      fun holder hholds => hheld ⟨holder, hholds⟩
    have hfresh := h.fresh_of_not_contains (hnobody origin)
    rw [h.reaches_iff_of_nobody htarget hnobody]
    simp only [hest.met_iff origin hknown hfresh]
    constructor
    · rintro (⟨holder, _, hholds, _⟩ | ⟨_, hstart⟩)
      · exact absurd hholds (hnobody holder)
      · exact hstart
    · exact fun hstart => .inr ⟨fun holder _ => hnobody holder, hstart⟩

/-- A node that did not execute starts by the estimates when it can execute. -/
theorem Consistent.startsBy_iff (h : d.Consistent m) (hquiet : d.Quiet)
    {known : List Nat} {estimates : List (Option Nat)} (hest : d.Estimated m known estimates)
    {node time : Nat} (hinner : m.chain.isInner node = true)
    (hknown : ∀ other, m.Waits node other → other ∈ known) (hfresh : d.executedAt node = none) :
    d.StartsBy m estimates node time ↔ d.CanExecute m node time := by
  have hcomes : ∀ other, m.Waits node other →
      (d.ComesBy m estimates node other time ↔ d.Reaches m node other time) := fun other hwaits =>
    h.comesBy_iff hquiet hest (hknown other hwaits) (Chain.lt_of_isInner hinner)
  unfold StartsBy
  rw [hfresh]
  constructor
  · rintro ⟨hstart, hnow, hwaits⟩
    exact
      { inner := hinner
        fresh := hfresh
        at_once := hstart
        now := hnow
        waits := fun other hother => (hcomes other hother).1 (hwaits other hother) }
  · intro hcan
    exact ⟨hcan.at_once, hcan.now, fun other hother => (hcomes other hother).2
      (hcan.waits other hother)⟩

/-- One more estimate, of a node that is not known yet. -/
theorem Estimated.set {known : List Nat} {estimates : List (Option Nat)}
    (hest : d.Estimated m known estimates) {node : Nat} {e : Option Nat}
    (hlt : node < estimates.length) (hnew : node ∉ known)
    (hmet : d.executedAt node = none → ∀ time, Met e time ↔ d.CanExecute m node time) :
    d.Estimated m (known ++ [node]) (estimates.set node e) :=
  { length_eq := by rw [List.length_set, hest.length_eq]
    met_iff := by
      intro other hother hnone time
      rw [getD_set _ _ _ hlt]
      rcases List.mem_append.1 hother with hold | hnow
      · have hne : node ≠ other := fun heq => hnew (heq ▸ hold)
        rw [if_neg hne]
        exact hest.met_iff other hold hnone time
      · cases List.mem_singleton.1 hnow
        rw [if_pos rfl]
        exact hmet hnone time }

/-- The estimates are right for all nodes that did not execute yet. -/
theorem Consistent.soonestExecutions_eq (h : d.Consistent m) (hm : m.WellFormed)
    (hquiet : d.Quiet) : ∃ estimates, m.soonestExecutions d = .ok estimates ∧
      Timely m m.ranks.sequence.length estimates ∧ d.Estimated m m.ranks.sequence estimates := by
  obtain ⟨estimates, hok, _, htimely, hest⟩ :=
    h.fits.soonestExecutions_induct hm (d.Estimated m) ⟨List.length_replicate, nofun⟩ <| by
      intro known node rest estimates e hsplit hest hlt hmet
      have hinner : m.chain.isInner node = true := hm.mem_sequence.1 (by rw [hsplit]; simp)
      refine hest.set hlt (hm.not_mem_of_sequence_eq hsplit) fun hfresh time => ?_
      exact (hmet time).trans <| h.startsBy_iff hquiet hest hinner
        (fun other hwaits => hm.mem_of_waits hsplit hwaits) hfresh
  exact ⟨estimates, hok, htimely, hest⟩

/-- The estimate of when both endpoints can hold everything. -/
theorem Consistent.soonestCompletion_eq (h : d.Consistent m) (hm : m.WellFormed)
    (hquiet : d.Quiet) :
    Soonest (m.soonestCompletion d) fun time => d.time ≤ time ∧ d.CanFinishBy m time := by
  obtain ⟨estimates, hestimates, htimely, hest⟩ := h.soonestExecutions_eq hm hquiet
  refine soonestCompletion_of_arrivals hm hestimates fun origin hinner target htarget => ?_
  obtain ⟨e, hok, hmet⟩ := h.fits.soonestArrival_comesBy hm hm.length_sequence_lt htimely
    hest.length_eq (Chain.lt_of_isInner hinner) htarget
  exact ⟨e, hok, fun time => (hmet time).trans
    (h.comesBy_iff hquiet hest (hm.mem_sequence.2 hinner) htarget)⟩

/-- The test whether a draft can still finish is exact. -/
theorem Consistent.decides_canFinish (h : d.Consistent m) (hm : m.WellFormed) (hquiet : d.Quiet) :
    Decides (m.canFinish d) (d.CanFinish m) := by
  obtain ⟨e, hok, hmet⟩ := h.soonestCompletion_eq hm hquiet
  refine ⟨e.any (· ≤ m.horizon), by rw [Model.canFinish, hok]; rfl, ?_⟩
  have hany : e.any (· ≤ m.horizon) = true ↔ Met e m.horizon := by
    cases e <;> simp
  rw [hany, hmet]
  exact and_iff_right h.time_le

end Draft

end ChainPropagation
