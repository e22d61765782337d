import ChainPropagation.Proofs.Gain

/-!
# A longer horizon gains nothing

The horizon of a built model is never longer than the square of the number of
nodes.  That is time enough for some schedule, whatever the ranks: in their
order each node can execute a crossing of the chain after the one before it
(`reaches_start`).  And whatever a longer horizon allows can be had within it
with no more messages.  The schedule may wait, repeat itself and send what is of
no use; a walk for it does not.  Each step of a walk sends something and each
message gains something, so that there is less to gain than there is time
(`Walks.gainful`).

## Main results

* `exists_lawful` — the square of the number of nodes is enough for a schedule.
* `Lawful.shortened` — it is enough for as many messages as a longer horizon takes.
* `clamp_exact` — what follows for the horizon of a built model.
-/

namespace ChainPropagation

/-- The model with another horizon. -/
def Model.withHorizon (m : Model) (horizon : Nat) : Model := { m with horizon }

/-! ## Some schedule ends in time -/

/-- To cross the chain takes less than one time for each node. -/
theorem Chain.mul_add_hops_le {c : Chain} {a b count limit : Nat} (ha : a < c.nodes)
    (hb : b < c.nodes) (hlt : count < limit) :
    count * c.nodes + hops a b ≤ limit * c.nodes := by
  have hhops : hops a b ≤ c.nodes := by
    unfold hops
    omega
  calc count * c.nodes + hops a b ≤ count * c.nodes + c.nodes := Nat.add_le_add_left hhops _
    _ = (count + 1) * c.nodes := (Nat.succ_mul _ _).symm
    _ ≤ limit * c.nodes := Nat.mul_le_mul_right _ hlt

namespace Draft

variable {m : Model}

/-- The induction is on how many nodes come before in the order of the ranks:
when the last one of them has executed, its result takes less than one time for
each node to arrive. -/
theorem reaches_start (hm : m.WellFormed) (count : Nat) :
    ∀ (known : List Nat) (node : Nat) (rest : List Nat), known.length = count →
      m.ranks.sequence = known ++ node :: rest →
      (start m).Reaches m node node (count * m.nodes) := by
  induction count using Nat.strongRecOn with
  | ind count ih =>
      intro known node rest hcount hsplit
      have hinner : m.chain.isInner node = true := by
        rw [← hm.mem_sequence, hsplit]
        simp
      refine .executes hinner (executedAt_start m node) (fun _ => rfl) (Nat.zero_le _) ?_
      intro other hwaits
      obtain ⟨before, after, hknown⟩ := List.append_of_mem (hm.mem_of_waits hsplit hwaits)
      have hfewer : before.length < count := by
        rw [← hcount, hknown, List.length_append, List.length_cons]
        omega
      have hother : (start m).Reaches m other other (before.length * m.nodes) := by
        apply ih before.length hfewer before other (after ++ node :: rest) rfl
        rw [hsplit, hknown, List.append_assoc, List.cons_append]
      have hcarried := hother.carried (Chain.lt_of_isInner hwaits.1) (Chain.lt_of_isInner hinner)
      exact hcarried.mono (Chain.mul_add_hops_le (Chain.lt_of_isInner hwaits.1)
        (Chain.lt_of_isInner hinner) hfewer)

theorem canFinish_start (hm : m.WellFormed) (hle : m.nodes * m.nodes ≤ m.horizon) :
    (start m).CanFinish m := by
  intro result hinner
  obtain ⟨known, rest, hsplit⟩ := List.append_of_mem (hm.mem_sequence.2 hinner)
  have hlength : known.length + 2 ≤ m.nodes := by
    have hall : m.ranks.sequence.length = m.nodes - 2 := by
      rw [hm.sequence_eq, (sorted_perm _ _).length_eq, Chain.inner, List.length_range']
      rfl
    rw [hsplit, List.length_append, List.length_cons] at hall
    omega
  have hreach := reaches_start hm known.length known result rest rfl hsplit
  have hcarried : ∀ node, node < m.chain.nodes → (start m).Reaches m node result m.horizon := by
    intro node hnode
    have hresult := Chain.lt_of_isInner hinner
    have hfew : known.length < m.nodes := by omega
    have harrives := Chain.mul_add_hops_le hresult hnode hfew
    exact (hreach.carried hresult hnode).mono (Nat.le_trans harrives hle)
  exact ⟨hcarried 0 hm.first_lt, hcarried m.chain.farEnd hm.farEnd_lt⟩

end Draft

/-- The square of the number of nodes is time enough for some schedule. -/
theorem Model.exists_lawful {m : Model} (hm : m.WellFormed) (hs : m.Storable)
    (hle : m.nodes * m.nodes ≤ m.horizon) :
    ∃ s, m.Lawful s := by
  have hsound := Draft.sound_start hs.horizon_lt
  obtain ⟨result, _, hcompletes⟩ := Draft.Consistent.floodFrom_eq hm m.horizon (.start m)
    hsound.toConsistent (Draft.quiet_start m) (Nat.le_of_eq (Nat.zero_add _))
  rw [show (Draft.start m).time = 0 from rfl, Nat.zero_add] at hcompletes
  exact (hcompletes.isSome_iff_lawful hsound hm rfl).1
    (hcompletes.isSome_iff.2 (Draft.canFinish_start hm hle))

/-- A walk gains something by every message, and sends something at every time. -/
theorem Draft.Walks.gainful {m : Model} {d last : Draft} (hwalk : Draft.Walks m d last)
    (hm : m.WellFormed) (h : d.Sound m) (hquiet : d.Quiet) (hgain : d.Gainful m) :
    last.Gainful m := by
  induction hwalk with
  | refl => exact hgain
  | tail walk step ih =>
      obtain ⟨hsound, _⟩ := Walks.sound walk hm h hquiet
      obtain ⟨e, f, links, hopens, hdecided, _, hmore, _, rfl⟩ :=
        step.step_eq hm hsound.toConsistent
      exact hopens.gainful_delivered hm ih hdecided hmore

/-! ## Schedules made shorter -/

namespace Model

variable {m : Model} {s : Schedule}

/-- Whatever the horizon, the square of the number of nodes is time enough for
as few messages. -/
theorem Lawful.shortened (hlaw : m.Lawful s) (hm : m.WellFormed) (hs : m.Storable) :
    ∃ s', (m.withHorizon (m.nodes * m.nodes)).Lawful s' ∧ s'.cost ≤ s.cost := by
  obtain ⟨last, done, hwalk, hexec, hends, hcost⟩ := exists_walk hm hs hlaw
  obtain ⟨hlast, hquiet⟩ := hwalk.sound hm (Draft.sound_start hs.horizon_lt) (Draft.quiet_start m)
  have hopens := hlast.opens_of_executeReady hm hexec
  have hgain := hwalk.gainful hm (Draft.sound_start hs.horizon_lt) (Draft.quiet_start m)
    (Draft.gainful_start m)
  have hearly : done.time ≤ m.nodes * m.nodes :=
    calc done.time = last.time := hopens.time_eq
      _ ≤ last.messages.size := hgain.time_le
      _ ≤ m.chain.mostMessages := hgain.size_le_most
      _ ≤ m.nodes * m.nodes := m.chain.mostMessages_le
  refine ⟨done.schedule, ?_, ?_⟩
  · exact ((hopens.sound hquiet hlast).lawful_now hends).of_horizon_le rfl rfl hearly
  · rw [Draft.cost_schedule, hopens.messages_eq]
    exact hcost

/-- Without a table there is no verdict. -/
theorem verdict_of_not_storable (hs : ¬ m.Storable) (s : Schedule) :
    m.verdict s = .error .tooLarge := by
  unfold verdict
  rw [replay_of_not_storable hs]
  rfl

end Model

/-- The horizon of a problem that is longer than the square of the number of nodes
is clamped to it, and nothing is lost by that: there is no obstacle, what is
valid is valid for the longer horizon as well, provided that a table for it can
be stored, and for whatever is valid there something is valid already with no
more messages. -/
theorem clamp_exact {p : Problem} {bank : RuleBank} {m : Model}
    (hbank : ∀ rule ∈ RuleBank.standard.rules, rule ∈ bank.rules) (h : p.model bank = .ok m)
    (hlong : p.nodes * p.nodes < p.horizon) :
    m.horizon = p.nodes * p.nodes ∧ m.obstacle = .ok none ∧
      ((m.withHorizon p.horizon).Storable → ∀ s, m.verdict s = .ok [] →
        (m.withHorizon p.horizon).verdict s = .ok []) ∧
      (¬ (m.withHorizon p.horizon).Storable → ∀ s,
        (m.withHorizon p.horizon).verdict s = .error .tooLarge) ∧
      ∀ s, (m.withHorizon p.horizon).verdict s = .ok [] →
        ∃ s', m.verdict s' = .ok [] ∧ s'.cost ≤ s.cost := by
  have hm := wellFormed_of_model h
  have hs := storable_of_model h
  have hnodes : m.nodes = p.nodes := by rw [(model_eq_ok h).2, Model.nodes]
  have hhorizon : m.horizon = p.nodes * p.nodes := by
    rw [(model_eq_ok h).2]
    exact Nat.min_eq_right (Nat.le_of_lt hlong)
  have hwide : (m.withHorizon p.horizon).WellFormed := hm.congr rfl rfl
  rw [← bank_of_model h] at hbank
  refine ⟨hhorizon, ?_, ?_, ?_, ?_⟩
  · obtain ⟨result, hobstacle, hnone, _⟩ := Model.obstacle_eq hm hs
    have hle : m.nodes * m.nodes ≤ m.horizon := by rw [hnodes, hhorizon]
    rw [hobstacle, hnone.2 (Model.exists_lawful hm hs hle)]
  · intro hstores s hvalid
    have hlaw := Model.lawful_of_verdict_eq_nil hm hs hbank hvalid
    have hle : m.horizon ≤ (m.withHorizon p.horizon).horizon := by
      rw [hhorizon]
      exact Nat.le_of_lt hlong
    exact Model.verdict_eq_nil_of_lawful hwide hstores (hlaw.of_horizon_le rfl rfl hle)
  · exact fun hnot s => Model.verdict_of_not_storable hnot s
  · intro s hvalid
    by_cases hstores : (m.withHorizon p.horizon).Storable
    · have hlaw := Model.lawful_of_verdict_eq_nil hwide hstores hbank hvalid
      obtain ⟨s', hshort, hcost⟩ := hlaw.shortened hwide hstores
      have hle : m.nodes * m.nodes ≤ m.horizon := by rw [hnodes, hhorizon]
      have hsame : m.Lawful s' := hshort.of_horizon_le rfl rfl hle
      exact ⟨s', Model.verdict_eq_nil_of_lawful hm hs hsame, hcost⟩
    · rw [Model.verdict_of_not_storable hstores] at hvalid
      cases hvalid

/-- The meeting, with more time than any schedule of five nodes needs. -/
def longMeeting : Problem := { meeting with horizon := 26 }

/-- The model of the meeting with its horizon clamped. -/
def squareMeeting : Model := meetingModel.withHorizon 25

theorem squareMeeting_passes : squareMeeting.verdict meetingSchedule = .ok [] := by
  have hbuilt : meeting.model .standard = .ok meetingModel := rfl
  have hm := wellFormed_of_model hbuilt
  have hlaw : meetingModel.Lawful meetingSchedule :=
    Model.lawful_of_verdict_eq_nil hm (storable_of_model hbuilt) (fun _ hrule => hrule) rfl
  have hstores : squareMeeting.Storable :=
    { table := by decide
      times := by decide }
  exact Model.verdict_eq_nil_of_lawful (hm.congr rfl rfl) hstores
    (hlaw.of_horizon_le rfl rfl (by decide))

theorem longMeeting_clamped :
    (∀ rule ∈ RuleBank.standard.rules, rule ∈ RuleBank.standard.rules) ∧
      longMeeting.model .standard = .ok squareMeeting ∧
      longMeeting.nodes * longMeeting.nodes < longMeeting.horizon ∧
      squareMeeting.obstacle = .ok none ∧
      (squareMeeting.withHorizon longMeeting.horizon).verdict meetingSchedule = .ok [] ∧
      ∃ s', squareMeeting.verdict s' = .ok [] ∧ s'.cost ≤ meetingSchedule.cost := by
  have hbuilt : longMeeting.model .standard = .ok squareMeeting := rfl
  have hlong : longMeeting.nodes * longMeeting.nodes < longMeeting.horizon := by decide
  have hstores : (squareMeeting.withHorizon longMeeting.horizon).Storable :=
    { table := by decide
      times := by decide }
  obtain ⟨_, hnone, hwider, _, hshorter⟩ := clamp_exact (fun _ hrule => hrule) hbuilt hlong
  have hvalid := hwider hstores meetingSchedule squareMeeting_passes
  exact ⟨fun _ hrule => hrule, hbuilt, hlong, hnone, hvalid, hshorter meetingSchedule hvalid⟩

/-- The meeting with the longest horizon that fits a machine word. -/
def endlessMeeting : Problem := { meeting with horizon := wordLimit - 1 }

/-- A table for that horizon cannot be stored, so that there is no verdict on a
schedule that is valid for the clamped one. -/
theorem endlessMeeting_not_judged :
    endlessMeeting.model .standard = .ok squareMeeting ∧
      endlessMeeting.nodes * endlessMeeting.nodes < endlessMeeting.horizon ∧
      squareMeeting.verdict meetingSchedule = .ok [] ∧
      (squareMeeting.withHorizon endlessMeeting.horizon).verdict meetingSchedule ≠ .ok [] := by
  have hfull : ¬ (squareMeeting.withHorizon endlessMeeting.horizon).Storable := by
    intro hstores
    exact absurd hstores.times (by decide)
  refine ⟨rfl, by decide, squareMeeting_passes, ?_⟩
  rw [Model.verdict_of_not_storable hfull]
  nofun

end ChainPropagation
