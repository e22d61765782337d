import ChainPropagation.Proofs.Earliest
import ChainPropagation.Proofs.Workers

/-!
# The normal form of solutions

A schedule may be valid although it waits, holds results back or sends what is known
already.  None of that is in the schedule of a run, if the rules do not ask for
announcements: its messages carry all that their senders hold and tell something to
their receivers, its nodes execute as soon as they hold what they wait for, and
nothing happens once both endpoints hold everything.

A run knows this of itself in terms of its own accounts.  `Draft.Tidy` says it of the
events, step by step; whether an event was right does not depend on later ones
(`Opens.holds_iff`, `holds_sent`).  So the independent replay of the schedule shows
the same (`Done.normalForm`).

## Main results

* `tidy_of_takes` — runs are tidy.
* `solvers_normal` — the schedules of all solvers are in normal form.
-/

namespace ChainPropagation

/-! ## The order of messages -/

namespace Message

/-- Strictly before, by time, sender and receiver. -/
def Before (a b : Message) : Prop :=
  a.time < b.time ∨ (a.time = b.time ∧
    (a.sender < b.sender ∨ (a.sender = b.sender ∧ a.receiver < b.receiver)))

/-- Of messages that go different ways or at different times one comes first. -/
theorem before_of_precedes {a b : Message} (h : a.precedes b = true) (hne : a.slot ≠ b.slot) :
    a.Before b := by
  rw [precedes_iff] at h
  simp only [slot, ne_eq, Prod.mk.injEq] at hne
  unfold Before
  omega

end Message

/-- If no message is repeated, those of a schedule in order are in strict order. -/
theorem Schedule.pairwise_before_inOrder (s : Schedule)
    (hdistinct : (s.messages.map Message.slot).Nodup) :
    s.inOrder.messages.Pairwise Message.Before := by
  have hordered := pairwise_sorted Message.precedes_total Message.precedes_trans s.messages
  have hslots : (s.inOrder.messages.map Message.slot).Nodup :=
    ((sorted_perm Message.precedes s.messages).map _).nodup_iff.2 hdistinct
  exact (hordered.and (List.pairwise_map.1 hslots)).imp fun h =>
    Message.before_of_precedes h.1 h.2

namespace Draft

variable {m : Model} {d e f g leaf : Draft} {links : List (Nat × Nat)}
  {sender receiver node result time upto : Nat}

/-! ## Tidy drafts -/

/-- The events of a draft, as a run of useful messages makes them: what a message
carries is all that its sender held, and something of it was new to its receiver;
until `upto`, nodes of a positive rank that held what they wait for had executed, and
an endpoint was incomplete. -/
structure Tidy (m : Model) (upto : Nat) (d : Draft) : Prop where
  full : ∀ a ∈ d.messages.toList, ∀ result, d.events.Holds a.sender result a.time →
    a.payload.contains result = true
  tells : ∀ a ∈ d.messages.toList, ∃ result, a.payload.contains result = true ∧
    ¬ d.events.Holds a.receiver result a.time
  prompt : ∀ time < upto, ∀ node, m.chain.isInner node = true → 0 < m.rank node →
    (∀ other, m.Waits node other → d.events.Holds node other time) →
      ∃ start ≤ time, d.executedAt node = some start
  unfinished : ∀ time < upto, ∃ result, m.chain.isInner result = true ∧
    ¬ (d.events.Holds 0 result time ∧ d.events.Holds m.chain.farEnd result time)

theorem tidy_start (m : Model) : (start m).Tidy m 0 where
  full := nofun
  tells := nofun
  prompt := fun _ hlt => absurd hlt (Nat.not_lt_zero _)
  unfinished := fun _ hlt => absurd hlt (Nat.not_lt_zero _)

/-- Executions change nothing about the times before. -/
theorem Opens.holds_iff (hopens : Opens m d (d.Ready m) e) (h : d.Consistent m)
    (htime : time < d.time) :
    e.events.Holds node result time ↔ d.events.Holds node result time := by
  have hsame : ∀ made : Execution, made.time ≤ time →
      (made ∈ e.events.executions ↔ made ∈ d.events.executions) := by
    rintro ⟨who, start⟩ hle
    rw [hopens.consistent.mem_events, h.mem_events, hopens.executedAt_iff]
    apply or_iff_left
    rintro ⟨_, rfl⟩
    exact absurd hle (Nat.not_le.2 htime)
  have hmessages : e.events.messages = d.events.messages := congrArg Array.toList hopens.messages_eq
  constructor
  · intro hholds
    exact hholds.transfer (Nat.le_refl _) (fun made hmade hle => (hsame made hle).1 hmade)
      fun a ha _ => hmessages ▸ ha
  · intro hholds
    exact hholds.transfer (Nat.le_refl _) (fun made hmade hle => (hsame made hle).2 hmade)
      fun a ha _ => hmessages ▸ ha

/-- The executions of a step keep a draft tidy. -/
theorem Opens.tidy (hopens : Opens m d (d.Ready m) e) (h : d.Consistent m) (hquiet : d.Quiet)
    (htidy : d.Tidy m d.time) : e.Tidy m d.time where
  full := by
    intro a ha result hholds
    rw [hopens.messages_eq] at ha
    rw [hopens.holds_iff h (h.sent_before hquiet a ha)] at hholds
    exact htidy.full a ha result hholds
  tells := by
    intro a ha
    rw [hopens.messages_eq] at ha
    obtain ⟨result, hcarries, hnew⟩ := htidy.tells a ha
    rw [← hopens.holds_iff h (h.sent_before hquiet a ha)] at hnew
    exact ⟨result, hcarries, hnew⟩
  prompt := by
    intro time hlt node hinner hpos hwaits
    simp only [hopens.holds_iff h hlt] at hwaits
    obtain ⟨start, hle, hexec⟩ := htidy.prompt time hlt node hinner hpos hwaits
    exact ⟨start, hle, hopens.keeps hexec⟩
  unfinished := by
    intro time hlt
    simp only [hopens.holds_iff h hlt]
    exact htidy.unfinished time hlt

/-- If they do not complete the endpoints, the step itself is in order so far: no
further node may execute. -/
theorem Opens.tidy_succ (hopens : Opens m d (d.Ready m) e) (h : d.Consistent m)
    (hquiet : d.Quiet) (htidy : d.Tidy m d.time) (hends : ¬ e.EndsHold m) :
    e.Tidy m (e.time + 1) := by
  have hbefore := hopens.tidy h hquiet htidy
  have he := hopens.consistent
  constructor
  · exact hbefore.full
  · exact hbefore.tells
  · intro time hlt node hinner hpos hwaits
    rcases Nat.lt_succ_iff_lt_or_eq.1 hlt with hearlier | rfl
    · exact hbefore.prompt time (hopens.time_eq ▸ hearlier) node hinner hpos hwaits
    · -- a node that has not executed by now would be ready
      cases hexec : e.executedAt node with
      | some start => exact ⟨start, (he.executes node start hexec).2.1, rfl⟩
      | none =>
          have hready : e.Ready m node :=
            { inner := hinner
              fresh := hexec
              at_once := fun hzero => by omega
              holds := fun other hother =>
                (he.contains_holding node other).2 (hwaits other hother) }
          exact absurd hready (hopens.not_ready node)
  · intro time hlt
    rcases Nat.lt_succ_iff_lt_or_eq.1 hlt with hearlier | rfl
    · exact hbefore.unfinished time (hopens.time_eq ▸ hearlier)
    · by_contra hdone
      apply hends
      intro result hinner
      rw [he.contains_holding, he.contains_holding]
      by_contra hmissing
      exact hdone ⟨result, hinner, hmissing⟩

/-- A message that tells something new keeps a draft tidy. -/
theorem Tidy.sent (htidy : d.Tidy m (d.time + 1)) (h : d.Consistent m)
    (hrule : m.bank.contains .rankZeroAnnounce = false) (huseful : d.Useful m sender receiver) :
    (d.sent sender receiver).Tidy m (d.time + 1) where
  full := by
    intro a ha result hholds
    rcases mem_messages_sent.1 ha with hold | rfl
    · rw [holds_sent _ _ _ (h.sends a hold).2.1] at hholds
      exact htidy.full a hold result hholds
    · rw [holds_sent _ _ _ (Nat.le_refl _)] at hholds
      exact (h.contains_holding _ _).2 hholds
  tells := by
    intro a ha
    rcases mem_messages_sent.1 ha with hold | rfl
    · simp only [holds_sent _ _ _ (h.sends a hold).2.1]
      exact htidy.tells a hold
    · simp only [holds_sent _ _ _ (Nat.le_refl _)]
      rcases huseful.serves with ⟨result, hheld, hnew⟩ | howes
      · exact ⟨result, hheld, fun hholds => hnew (held_next ((h.contains_holding _ _).2 hholds))⟩
      · rw [howes.1] at hrule
        cases hrule
  prompt := by
    intro time hlt node hinner hpos hwaits
    simp only [holds_sent _ _ _ (Nat.le_of_lt_succ hlt)] at hwaits
    exact htidy.prompt time hlt node hinner hpos hwaits
  unfinished := by
    intro time hlt
    simp only [holds_sent _ _ _ (Nat.le_of_lt_succ hlt)]
    exact htidy.unfinished time hlt

theorem Decided.tidy (hdecided : Decided m links d f) (hm : m.WellFormed) (h : d.Consistent m)
    (hrule : m.bank.contains .rankZeroAnnounce = false) (htidy : d.Tidy m (d.time + 1)) :
    f.Tidy m (f.time + 1) := by
  induction hdecided with
  | nil => exact htidy
  | skip _ ih => exact ih h htidy
  | send useful sends _ ih =>
      have huseful := (h.decides_isUseful hm _ _).of_eq_true useful
      rw [eq_sent_of_send sends] at ih
      exact ih (h.grows_sent huseful).consistent (htidy.sent h hrule huseful)

/-- When time passes there are no new events. -/
theorem Tidy.delivered (htidy : f.Tidy m upto) : f.delivered.Tidy m upto :=
  { full := htidy.full
    tells := htidy.tells
    prompt := htidy.prompt
    unfinished := htidy.unfinished }

theorem Takes.tidy (hstep : Takes m d g) (hm : m.WellFormed) (h : d.Consistent m)
    (hquiet : d.Quiet) (hrule : m.bank.contains .rankZeroAnnounce = false)
    (htidy : d.Tidy m d.time) : g.Tidy m g.time := by
  obtain ⟨e, f, links, hopens, hends, hdecided, _, _, rfl⟩ := hstep.step_eq hm h hquiet
  have he := hopens.tidy_succ h hquiet htidy hends
  exact (hdecided.tidy hm hopens.consistent hrule he).delivered

/-- Runs are tidy. -/
theorem tidy_of_takes (hrun : Relation.ReflTransGen (Takes m) (start m) d) (hm : m.WellFormed)
    (hlt : m.horizon < storageLimit) (hrule : m.bank.contains .rankZeroAnnounce = false) :
    d.Tidy m d.time := by
  induction hrun with
  | refl => exact tidy_start m
  | tail run step ih =>
      have hsound := sound_of_takes run hm hlt
      exact step.tidy hm hsound.1.toConsistent hsound.2 hrule ih

/-- A tidy draft whose endpoints hold everything, and which has not sent anything
since they do. -/
structure Done (m : Model) (e : Draft) : Prop extends Sound m e where
  quiet : e.Quiet
  ends : e.EndsHold m
  tidy : e.Tidy m e.time

/-- A run ends with such a draft. -/
theorem RunsTo.exists_done (hrun : RunsTo m (start m) leaf) (hm : m.WellFormed)
    (hlt : m.horizon < storageLimit) (hrule : m.bank.contains .rankZeroAnnounce = false) :
    ∃ e, Done m e ∧ e.schedule = leaf.schedule := by
  obtain ⟨last, hsteps, hbegin⟩ := hrun
  obtain ⟨hsound, hquiet⟩ := sound_of_takes hsteps hm hlt
  obtain ⟨e, hopens, ⟨hends, hfinished⟩ | ⟨_, hcontinuing⟩⟩ := hsound.beginStep_eq hm hquiet
  · rw [hfinished] at hbegin
    cases hbegin
    have htidy := hopens.tidy hsound.toConsistent hquiet (tidy_of_takes hsteps hm hlt hrule)
    exact ⟨e, ⟨hopens.sound hquiet hsound, hopens.quiet hquiet, hends, hopens.time_eq ▸ htidy⟩,
      (schedule_settled e).symm⟩
  · rw [hcontinuing] at hbegin
    cases hbegin

end Draft

/-! ## The normal form -/

/-- The normal form of a schedule, by the table of its replay and the time at which
both endpoints are complete there. -/
structure Model.NormalForm (m : Model) (s : Schedule) (table : Possession) (done : Nat) :
    Prop where
  ascending : s.messages.Pairwise Message.Before
  early : ∀ a ∈ s.messages, a.time < done
  full : ∀ a ∈ s.messages, table.read a.time a.sender = .ok a.payload
  tells : ∀ a ∈ s.messages, ∃ known, table.read a.time a.receiver = .ok known ∧
    a.payload.isSubset known = false
  prompt : ∀ node, m.chain.isInner node = true → ∃ time, s.timeOf node = some time ∧
    (m.awaited node).isSubset (table.cell time node) = true ∧
    ∀ earlier < time, (m.awaited node).isSubset (table.cell earlier node) = false

/-- The replay of a schedule shows it to be in normal form. -/
def Model.IsNormal (m : Model) (s : Schedule) : Prop :=
  ∃ table done, m.replay s = .ok table ∧
    table.completion m.chain.resultSet m.chain.farEnd = .ok (some done) ∧ m.NormalForm s table done

namespace Draft

variable {m : Model} {e : Draft} {a : Message} {node result time : Nat}

theorem holds_schedule_iff (e : Draft) :
    e.schedule.Holds node result time ↔ e.events.Holds node result time :=
  (Schedule.holds_congr (schedule_perm e).1 (schedule_perm e).2).symm

theorem mem_messages_schedule (e : Draft) :
    a ∈ e.schedule.messages ↔ a ∈ e.messages.toList :=
  (schedule_perm e).2.mem_iff.symm

namespace Done

/-- The rows of its replay. -/
theorem contains_cell_iff (h : Done m e) (hm : m.WellFormed) (htime : time ≤ m.horizon)
    (hnode : node < m.chain.nodes) (result : Nat) :
    ((e.schedule.table m.nodes m.horizon).cell time node).contains result = true ↔
      e.events.Holds node result time := by
  rw [(h.lawful h.ends).orderly.contains_cell_iff_holds hm htime hnode, holds_schedule_iff]

theorem timeOf_eq_some_iff (h : Done m e) :
    e.schedule.timeOf node = some time ↔ e.executedAt node = some time := by
  rw [(h.lawful h.ends).orderly.timeOf_eq_some_iff, ← (schedule_perm e).1.mem_iff, h.mem_events]

/-- The replay completes just now. -/
theorem completion_eq (h : Done m e) (hm : m.WellFormed) :
    (e.schedule.table m.nodes m.horizon).completion m.chain.resultSet m.chain.farEnd =
      .ok (some e.time) := by
  have hlaw := h.lawful h.ends
  rw [Model.completion_eq_some_iff hm (Model.covers_table _)]
  refine ⟨h.time_le, ?_, fun earlier hlt hcomplete => ?_⟩
  · rw [hlaw.orderly.completeAt_iff hm h.time_le]
    intro result hinner
    rw [← h.contains_iff_holds, ← h.contains_iff_holds]
    exact h.ends result hinner
  · have hbefore : earlier ≤ m.horizon := Nat.le_trans (Nat.le_of_lt hlt) h.time_le
    rw [hlaw.orderly.completeAt_iff hm hbefore] at hcomplete
    obtain ⟨result, hinner, hmissing⟩ := h.tidy.unfinished earlier hlt
    have hboth := hcomplete result hinner
    rw [holds_schedule_iff, holds_schedule_iff] at hboth
    exact hmissing hboth

/-- A message carries just what the row of its time has for its sender. -/
theorem payload_eq (h : Done m e) (hm : m.WellFormed) (ha : a ∈ e.messages.toList) :
    a.payload = (e.schedule.table m.nodes m.horizon).cell a.time a.sender := by
  obtain ⟨hbeside, hle, _, hheld⟩ := h.sends a ha
  have hsender := (Chain.sideBySide_iff.1 hbeside).1
  rw [NodeSet.eq_iff_contains]
  intro result
  rw [h.contains_cell_iff hm (Nat.le_trans hle h.time_le) hsender]
  exact ⟨hheld result, h.tidy.full a ha result⟩

/-- Not all of it is in the row for its receiver. -/
theorem payload_not_subset (h : Done m e) (hm : m.WellFormed) (ha : a ∈ e.messages.toList) :
    a.payload.isSubset ((e.schedule.table m.nodes m.horizon).cell a.time a.receiver) = false := by
  obtain ⟨hbeside, hle, _⟩ := h.sends a ha
  have hreceiver := (Chain.sideBySide_iff.1 hbeside).2.1
  obtain ⟨result, hcarries, hnew⟩ := h.tidy.tells a ha
  rw [← Bool.not_eq_true, NodeSet.isSubset_iff]
  intro hknown
  apply hnew
  rw [← h.contains_cell_iff hm (Nat.le_trans hle h.time_le) hreceiver]
  exact hknown result hcarries

/-- A node executes at the first time at which the rows have all that it waits for. -/
theorem executes_first (h : Done m e) (hm : m.WellFormed) (hinner : m.chain.isInner node = true) :
    ∃ time, e.schedule.timeOf node = some time ∧
      (m.awaited node).isSubset ((e.schedule.table m.nodes m.horizon).cell time node) = true ∧
      ∀ earlier < time, (m.awaited node).isSubset
        ((e.schedule.table m.nodes m.horizon).cell earlier node) = false := by
  have hlt := Chain.lt_of_isInner hinner
  obtain ⟨time, hexec⟩ := h.executed_of_contains (h.ends node hinner).1
  obtain ⟨_, hle, hzero, hheld⟩ := h.executes node time hexec
  refine ⟨time, h.timeOf_eq_some_iff.2 hexec, ?_, fun earlier hearlier => ?_⟩
  · rw [hm.awaited_isSubset_iff hlt]
    intro other hwaits
    rw [h.contains_cell_iff hm (Nat.le_trans hle h.time_le) hlt]
    exact hheld other hwaits
  · have hpos : 0 < m.rank node := by
      have hnonneg := hm.rank_nonneg node
      by_contra hnot
      have hfirst := hzero (by omega)
      omega
    have hwithin : earlier ≤ m.horizon := by
      have hhorizon := h.time_le
      omega
    rw [← Bool.not_eq_true, hm.awaited_isSubset_iff hlt]
    intro hwaits
    simp only [h.contains_cell_iff hm hwithin hlt] at hwaits
    obtain ⟨start, hstart, hsame⟩ := h.tidy.prompt earlier (by omega) node hinner hpos hwaits
    rw [hexec] at hsame
    cases hsame
    omega

theorem normalForm (h : Done m e) (hm : m.WellFormed) :
    m.NormalForm e.schedule (e.schedule.table m.nodes m.horizon) e.time :=
  { ascending := Schedule.pairwise_before_inOrder e.events h.distinct
    early := fun a ha => h.sent_before h.quiet a ((mem_messages_schedule e).1 ha)
    full := by
      intro a ha
      have hmade := (mem_messages_schedule e).1 ha
      obtain ⟨hbeside, hle, _⟩ := h.sends a hmade
      rw [h.payload_eq hm hmade]
      exact (Model.covers_table _).read_eq (Nat.le_trans hle h.time_le)
        (Chain.sideBySide_iff.1 hbeside).1
    tells := by
      intro a ha
      have hmade := (mem_messages_schedule e).1 ha
      obtain ⟨hbeside, hle, _⟩ := h.sends a hmade
      exact ⟨_, (Model.covers_table _).read_eq (Nat.le_trans hle h.time_le)
        (Chain.sideBySide_iff.1 hbeside).2.1, h.payload_not_subset hm hmade⟩
    prompt := fun node hinner => h.executes_first hm hinner }

end Done

end Draft

/-- The schedule of a run is in normal form. -/
theorem Model.Runs.isNormal {m : Model} {s : Schedule} (h : m.Runs s) (hm : m.WellFormed)
    (hs : m.Storable) (hrule : m.bank.contains .rankZeroAnnounce = false) : m.IsNormal s := by
  obtain ⟨leaf, hrun, rfl⟩ := h
  obtain ⟨e, hdone, hsame⟩ := hrun.exists_done hm hs.horizon_lt hrule
  rw [← hsame]
  exact ⟨_, e.time, Model.replay_eq hm hs _, hdone.completion_eq hm, hdone.normalForm hm⟩

/-- Where there is no obstacle under the standard bank, a flood and a dive with any coin
and random words come to schedules in normal form.  So does the search with all options,
whatever happens among its workers, unless they cannot be started. -/
theorem solvers_normal {p : Problem} {m : Model} (h : p.model .standard = .ok m)
    (hclear : m.obstacle = .ok none) :
    (∃ d, m.flood = .ok (some d) ∧ m.IsNormal d.schedule) ∧
      (∀ (σ : Type) (next : σ → UInt64 × σ) (coin : Coin) (s : σ),
        ∃ d s', m.dive next coin s = .ok (some d, s') ∧ m.IsNormal d.schedule) ∧
      ∀ (σ : Type) (g : Generator σ) (o : Options) (course : Course),
        (∃ found, m.solveTogether g o course = .ok (.feasible found) ∧
          m.IsNormal found.schedule) ∨
        ∃ why, course.start o.workers = .error why ∧
          m.solveTogether g o course = .error (o.refusal why) := by
  have hm := wellFormed_of_model h
  have hs := storable_of_model h
  have hrule : m.bank.contains .rankZeroAnnounce = false := by
    rw [bank_of_model h]
    rfl
  obtain ⟨obstacle, hobstacle, hnone, _⟩ := Model.obstacle_eq hm hs
  rw [hclear] at hobstacle
  cases hobstacle
  have hsome : ∃ s, m.Lawful s := hnone.1 rfl
  refine ⟨?_, fun σ next coin s => ?_, fun σ g o course => ?_⟩
  · obtain ⟨d, hflood, _⟩ := Model.exists_flood hm hs hsome
    exact ⟨d, hflood, (Model.runs_of_flood hflood).isNormal hm hs hrule⟩
  · obtain ⟨result, s', hdive, _, hfinds⟩ := Model.dive_eq hm hs next coin s
    obtain ⟨d, rfl⟩ := Option.isSome_iff_exists.1 (hfinds.2 hsome)
    exact ⟨d, s', hdive, (Model.runs_of_dive hdive).isNormal hm hs hrule⟩
  · rcases Model.solveTogether_eq hm hs g o course with
      ⟨hnot, _⟩ | hrefused | ⟨_, found, _, hsolve, hfinds, _⟩
    · exact absurd hsome hnot
    · exact .inr hrefused
    · exact .inl ⟨found, hsolve, hfinds.runs.isNormal hm hs hrule⟩

/-- The worker goes on that did not take the last step; it sees nothing of what the
other one found. -/
def Choice.inTurn (turn : Nat) : Choice where
  takes := true
  job := turn
  worker := 1
  earlier := Glance.mk (wordLimit - 1) false

/-- Two workers that take turns. -/
def Course.inTurn : Course where
  start _ := .ok ⟨2, Nat.two_pos⟩
  dives := .inTurn
  subtrees := .inTurn
  clock _ := 0

/-- What the solvers find for the meeting. -/
theorem meeting_solved_normally :
    meeting.model .standard = .ok meetingModel ∧ meetingModel.obstacle = .ok none ∧
      (∃ d, meetingModel.flood = .ok (some d) ∧ meetingModel.IsNormal d.schedule) ∧
      (∃ d s', meetingModel.dive Xoshiro.next (.below 0x8000000000000000) (.ofSeed 7) =
        .ok (some d, s') ∧ meetingModel.IsNormal d.schedule) ∧
      ∃ found, meetingModel.solveTogether Xoshiro.generator .standard .inTurn =
          .ok (.feasible found) ∧
        meetingModel.IsNormal found.schedule :=
  have hbuilt : meeting.model .standard = .ok meetingModel := rfl
  have hclear : meetingModel.obstacle = .ok none := by decide +kernel
  have hsolvers := solvers_normal hbuilt hclear
  ⟨hbuilt, hclear, hsolvers.1, hsolvers.2.1 _ Xoshiro.next (.below 0x8000000000000000) (.ofSeed 7),
    (hsolvers.2.2 _ Xoshiro.generator .standard .inTurn).resolve_right nofun⟩

end ChainPropagation
