import ChainPropagation.Proofs.Earliest
import ChainPropagation.Proofs.Idle

/-!
# Schedules under a longer horizon

A message that is sent just at the horizon tells nobody anything, as it would
arrive later.  With more time it does arrive, and the endpoints may then be told
what they missed.  So a schedule may be valid for a longer horizon without being so
for a shorter one, even if it lists nothing later than that.

This is all that can go wrong.  A valid schedule stays valid with more time, whatever
arrives late, since its messages carry only what their senders hold; and one that
is valid with more time is so with less if it is over by then and both endpoints
have everything (`lawful_iff_withHorizon`, `horizon_exact`).
-/

namespace ChainPropagation

namespace Model

variable {m : Model} {s : Schedule} {longer : Nat}

/-- With less time it takes the events to be over by then and the endpoints to be
complete; all else does not depend on the horizon. -/
theorem Lawful.withHorizon (h : (m.withHorizon longer).Lawful s)
    (hexec : ∀ e ∈ s.executions, e.time ≤ m.horizon)
    (hsent : ∀ a ∈ s.messages, a.time ≤ m.horizon)
    (hends : ∀ node, m.chain.isInner node = true →
      s.Holds 0 node m.horizon ∧ s.Holds m.chain.farEnd node m.horizon) : m.Lawful s :=
  { once := h.once
    inner := h.inner
    in_time := hexec
    at_once := h.at_once
    enabled := h.enabled
    beside := h.beside
    sent_in_time := hsent
    nonempty := h.nonempty
    distinct := h.distinct
    held := h.held
    complete := hends }

/-- The row of the replay that counts is one of the longer horizon. -/
theorem lawful_iff_withHorizon (hm : m.WellFormed) (hle : m.horizon ≤ longer) :
    m.Lawful s ↔ (m.withHorizon longer).Lawful s ∧
      (∀ e ∈ s.executions, e.time ≤ m.horizon) ∧ (∀ a ∈ s.messages, a.time ≤ m.horizon) ∧
      m.CompleteAt (s.table m.nodes longer) m.horizon := by
  have hwide : (m.withHorizon longer).WellFormed := hm.congr rfl rfl
  constructor
  · intro h
    have hlonger : (m.withHorizon longer).Lawful s := h.of_horizon_le rfl rfl hle
    exact ⟨hlonger, h.in_time, h.sent_in_time,
      (hlonger.orderly.completeAt_iff hwide hle).2 h.complete⟩
  · rintro ⟨h, hexec, hsent, hcomplete⟩
    exact h.withHorizon hexec hsent ((h.orderly.completeAt_iff hwide hle).1 hcomplete)

end Model

/-- Two built models that differ in the horizon only.  What is valid for the shorter
one is what is valid for the longer one, lists nothing after the shorter horizon,
and has both endpoints complete in that row of the longer replay.  So more time
never makes a schedule invalid. -/
theorem horizon_exact {p p' : Problem} {bank : RuleBank} {m m' : Model}
    (hbank : ∀ rule ∈ RuleBank.standard.rules, rule ∈ bank.rules) (h : p.model bank = .ok m)
    (h' : p'.model bank = .ok m') (hsame : m' = m.withHorizon m'.horizon)
    (hle : m.horizon ≤ m'.horizon) (s : Schedule) :
    (∃ table, m'.replay s = .ok table ∧ (m.verdict s = .ok [] ↔
      m'.verdict s = .ok [] ∧ (∀ e ∈ s.executions, e.time ≤ m.horizon) ∧
        (∀ a ∈ s.messages, a.time ≤ m.horizon) ∧ m.CompleteAt table m.horizon)) ∧
      (m.verdict s = .ok [] → m'.verdict s = .ok []) := by
  have hm := wellFormed_of_model h
  have hs := storable_of_model h
  have hm' := wellFormed_of_model h'
  have hs' := storable_of_model h'
  have hbank' : ∀ rule ∈ RuleBank.standard.rules, rule ∈ m'.bank.rules := by
    rw [bank_of_model h']
    exact hbank
  rw [← bank_of_model h] at hbank
  have hvalid : m.verdict s = .ok [] ↔ m.Lawful s := Model.accepts_iff_lawful hm hs hbank
  have hvalid' : m'.verdict s = .ok [] ↔ m'.Lawful s := Model.accepts_iff_lawful hm' hs' hbank'
  obtain ⟨longer, rfl⟩ : ∃ longer, m' = m.withHorizon longer := ⟨_, hsame⟩
  have hiff : m.verdict s = .ok [] ↔ (m.withHorizon longer).verdict s = .ok [] ∧
      (∀ e ∈ s.executions, e.time ≤ m.horizon) ∧ (∀ a ∈ s.messages, a.time ≤ m.horizon) ∧
      m.CompleteAt (s.table m.nodes longer) m.horizon := by
    rw [hvalid, hvalid']
    exact Model.lawful_iff_withHorizon hm hle
  exact ⟨⟨s.table m.nodes longer, Model.replay_eq hm' hs' s, hiff⟩, fun h => (hiff.1 h).1⟩

/-- The patient schedule of the meeting lists nothing later than time 3, and it is
valid if there is time until 4.  But its last messages are sent at time 3, and with
no more time than that the endpoints would hold nothing. -/
theorem patientSchedule_late :
    (∀ rule ∈ RuleBank.standard.rules, rule ∈ RuleBank.standard.rules) ∧
      meeting.model .standard = .ok meetingModel ∧
      patientMeeting.model .standard = .ok (meetingModel.withHorizon 4) ∧
      meetingModel.horizon ≤ (meetingModel.withHorizon 4).horizon ∧
      (meetingModel.withHorizon 4).verdict patientSchedule = .ok [] ∧
      (∀ e ∈ patientSchedule.executions, e.time ≤ 3) ∧
      (∀ a ∈ patientSchedule.messages, a.time ≤ 3) ∧
      meetingModel.verdict patientSchedule ≠ .ok [] ∧
      (meetingModel.withHorizon 4).verdict meetingSchedule = .ok [] := by
  have hbank : ∀ rule ∈ RuleBank.standard.rules, rule ∈ RuleBank.standard.rules :=
    fun _ hrule => hrule
  have hbuilt : meeting.model .standard = .ok meetingModel := rfl
  have hpatient : patientMeeting.model .standard = .ok (meetingModel.withHorizon 4) := rfl
  have hle : meetingModel.horizon ≤ (meetingModel.withHorizon 4).horizon := by decide
  have hvalid : (meetingModel.withHorizon 4).verdict patientSchedule = .ok [] := rfl
  have hmeeting : meetingModel.verdict meetingSchedule = .ok [] := rfl
  obtain ⟨⟨table, hreplay, hiff⟩, _⟩ := horizon_exact hbank hbuilt hpatient rfl hle patientSchedule
  obtain ⟨_, hkept⟩ := horizon_exact hbank hbuilt hpatient rfl hle meetingSchedule
  refine ⟨hbank, hbuilt, hpatient, hle, hvalid, by decide, by decide, ?_, hkept hmeeting⟩
  intro hshort
  have htable : (meetingModel.withHorizon 4).replay patientSchedule =
      .ok (patientSchedule.table 5 4) := rfl
  rw [htable] at hreplay
  cases hreplay
  have hrow := ((hiff.1 hshort).2.2.2 1 (by decide)).1
  exact absurd hrow (by decide)

end ChainPropagation
