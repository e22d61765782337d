import ChainPropagation.Proofs.Horizon

/-!
# Idle steps

At a time at which no message is sent nothing is on its way.  What comes later may
then come one step earlier (`Schedule.closeGap`): a node that executed in the
meantime does so when the others wait anyway, and whoever held a result still does
(`Holds.closeGap`).  The schedule gets by with a horizon that is one shorter
(`closeGap_valid`).
-/

namespace ChainPropagation

/-! ## Times without the gap -/

/-- Times after the gap are one earlier. -/
def earlier (gap time : Nat) : Nat := if gap < time then time - 1 else time

section earlier

variable {gap a b : Nat}

theorem earlier_zero (gap : Nat) : earlier gap 0 = 0 := rfl

theorem earlier_mono (hle : a ≤ b) : earlier gap a ≤ earlier gap b := by
  unfold earlier
  split <;> split <;> omega

/-- Only the gap itself falls together with the time after it. -/
theorem earlier_lt (hlt : a < b) (hgap : a ≠ gap) : earlier gap a < earlier gap b := by
  unfold earlier
  split <;> split <;> omega

theorem earlier_inj (ha : a ≠ gap) (hb : b ≠ gap) (heq : earlier gap a = earlier gap b) :
    a = b := by
  unfold earlier at heq
  split at heq <;> split at heq <;> omega

theorem earlier_of_lt (hlt : gap < a) : earlier gap a = a - 1 := if_pos hlt

theorem earlier_le (hle : a ≤ b) (hgap : gap < b) : earlier gap a ≤ b - 1 := by
  rw [← earlier_of_lt hgap]
  exact earlier_mono hle

end earlier

/-! ## Schedules without the gap -/

namespace Schedule

/-- Whatever comes after the gap comes one step earlier. -/
def closeGap (s : Schedule) (gap : Nat) : Schedule where
  executions := s.executions.map fun e => { e with time := earlier gap e.time }
  messages := s.messages.map fun a => { a with time := earlier gap a.time }

variable {s : Schedule} {gap node result now : Nat}

theorem cost_closeGap (s : Schedule) (gap : Nat) : (s.closeGap gap).cost = s.cost :=
  List.length_map _

/-- Where nothing is sent in the gap, whatever was held is held all the same. -/
theorem Holds.closeGap (hidle : ∀ a ∈ s.messages, a.time ≠ gap) (h : s.Holds node result now) :
    (s.closeGap gap).Holds node result (earlier gap now) := by
  induction h with
  | @own node time now executes done =>
      have hmoved : ⟨node, earlier gap time⟩ ∈ (s.closeGap gap).executions :=
        List.mem_map.2 ⟨_, executes, rfl⟩
      exact .own hmoved (earlier_mono done)
  | @told a node result now sent receives arrived carries held ih =>
      have hmoved : { a with time := earlier gap a.time } ∈ (s.closeGap gap).messages :=
        List.mem_map.2 ⟨a, sent, rfl⟩
      have harrived : earlier gap a.time < earlier gap now := earlier_lt arrived (hidle a sent)
      exact .told hmoved receives harrived carries ih

end Schedule

namespace Model

variable {m : Model} {s : Schedule} {gap : Nat}

/-- Closing a gap in which nothing is sent makes one time less suffice. -/
theorem Orderly.closeGap (h : m.Orderly s) (hgap : gap < m.horizon)
    (hidle : ∀ a ∈ s.messages, a.time ≠ gap) :
    (m.withHorizon (m.horizon - 1)).Orderly (s.closeGap gap) :=
  { once := by
      intro node
      simp only [Schedule.closeGap, List.countP_map]
      exact h.once node
    inner := by
      intro e he
      obtain ⟨before, hbefore, rfl⟩ := List.mem_map.1 he
      exact h.inner before hbefore
    in_time := by
      intro e he
      obtain ⟨before, hbefore, rfl⟩ := List.mem_map.1 he
      exact earlier_le (h.in_time before hbefore) hgap
    at_once := by
      intro e he hzero
      obtain ⟨before, hbefore, rfl⟩ := List.mem_map.1 he
      show earlier gap before.time = 0
      rw [h.at_once before hbefore hzero, earlier_zero]
    enabled := by
      intro e he hpos other hother hlower
      obtain ⟨before, hbefore, rfl⟩ := List.mem_map.1 he
      exact (h.enabled before hbefore hpos other hother hlower).closeGap hidle
    sideBySide := by
      intro a ha
      obtain ⟨before, hbefore, rfl⟩ := List.mem_map.1 ha
      exact h.sideBySide before hbefore
    sent_in_time := by
      intro a ha
      obtain ⟨before, hbefore, rfl⟩ := List.mem_map.1 ha
      exact earlier_le (h.sent_in_time before hbefore) hgap
    nonempty := by
      intro a ha
      obtain ⟨before, hbefore, rfl⟩ := List.mem_map.1 ha
      exact h.nonempty before hbefore
    distinct := by
      have hslots := List.pairwise_map.1 h.distinct
      simp only [Schedule.closeGap, List.map_map]
      refine List.pairwise_map.2 (hslots.imp_of_mem fun {a b} ha hb hne hsame => hne ?_)
      -- times fall together only with the gap, at which there is no message
      simp only [Function.comp_apply, Message.slot, Prod.ext_iff] at hsame ⊢
      exact ⟨hsame.1, hsame.2.1, earlier_inj (hidle a ha) (hidle b hb) hsame.2.2⟩
    held := by
      intro a ha result hresult
      obtain ⟨before, hbefore, rfl⟩ := List.mem_map.1 ha
      exact (h.held before hbefore result hresult).closeGap hidle }

theorem Lawful.closeGap (h : m.Lawful s) (hgap : gap < m.horizon)
    (hidle : ∀ a ∈ s.messages, a.time ≠ gap) :
    (m.withHorizon (m.horizon - 1)).Lawful (s.closeGap gap) := by
  refine (h.orderly.closeGap hgap hidle).lawful fun node hinner => ?_
  show (s.closeGap gap).Holds 0 node (m.horizon - 1) ∧
    (s.closeGap gap).Holds m.chain.farEnd node (m.horizon - 1)
  rw [← earlier_of_lt hgap]
  exact ⟨(h.complete node hinner).1.closeGap hidle, (h.complete node hinner).2.closeGap hidle⟩

/-- A table for a shorter horizon can be stored if one for a longer horizon can. -/
theorem Storable.withHorizon (hs : m.Storable) {horizon : Nat} (hle : horizon ≤ m.horizon) :
    (m.withHorizon horizon).Storable :=
  { table := Nat.lt_of_le_of_lt (Nat.mul_le_mul_left _ (Nat.succ_le_succ hle)) hs.table
    times := Nat.lt_of_le_of_lt (Nat.mul_le_mul_left _ (Nat.succ_le_succ hle)) hs.times }

end Model

/-- A time at which a valid schedule sends nothing can be cut out of it. -/
theorem closeGap_valid {p : Problem} {bank : RuleBank} {m : Model}
    (hbank : ∀ rule ∈ RuleBank.standard.rules, rule ∈ bank.rules) (h : p.model bank = .ok m)
    {s : Schedule} {gap : Nat} (hvalid : m.verdict s = .ok []) (hgap : gap < m.horizon)
    (hidle : ∀ a ∈ s.messages, a.time ≠ gap) :
    (m.withHorizon (m.horizon - 1)).verdict (s.closeGap gap) = .ok [] ∧
      (s.closeGap gap).cost = s.cost := by
  have hm := wellFormed_of_model h
  have hs := storable_of_model h
  rw [← bank_of_model h] at hbank
  have hlaw := Model.lawful_of_verdict_eq_nil hm hs hbank hvalid
  have hstores := hs.withHorizon (Nat.sub_le m.horizon 1)
  have hshort : (m.withHorizon (m.horizon - 1)).WellFormed := hm.congr rfl rfl
  exact ⟨Model.verdict_eq_nil_of_lawful hshort hstores (hlaw.closeGap hgap hidle),
    s.cost_closeGap gap⟩

/-- The meeting with one more time than it needs. -/
def patientMeeting : Problem := { meeting with horizon := 4 }

/-- The node in the middle executes late, and nothing is sent in the meantime. -/
def patientSchedule : Schedule where
  executions := [⟨1, 0⟩, ⟨3, 0⟩, ⟨2, 2⟩]
  messages := [
    ⟨1, 2, 0, .ofList [1]⟩, ⟨3, 2, 0, .ofList [3]⟩,
    ⟨2, 1, 2, .ofList [1, 2, 3]⟩, ⟨2, 3, 2, .ofList [1, 2, 3]⟩,
    ⟨1, 0, 3, .ofList [1, 2, 3]⟩, ⟨3, 4, 3, .ofList [1, 2, 3]⟩]

/-- Without its idle time it is the schedule of the meeting. -/
theorem patientSchedule_closeGap :
    (∀ rule ∈ RuleBank.standard.rules, rule ∈ RuleBank.standard.rules) ∧
      patientMeeting.model .standard = .ok (meetingModel.withHorizon 4) ∧
      (meetingModel.withHorizon 4).verdict patientSchedule = .ok [] ∧
      1 < (meetingModel.withHorizon 4).horizon ∧
      (∀ a ∈ patientSchedule.messages, a.time ≠ 1) ∧
      patientSchedule.closeGap 1 = meetingSchedule ∧
      meetingModel.verdict (patientSchedule.closeGap 1) = .ok [] ∧
      (patientSchedule.closeGap 1).cost = 6 := by
  have hbank : ∀ rule ∈ RuleBank.standard.rules, rule ∈ RuleBank.standard.rules :=
    fun _ hrule => hrule
  have hbuilt : patientMeeting.model .standard = .ok (meetingModel.withHorizon 4) := rfl
  have hvalid : (meetingModel.withHorizon 4).verdict patientSchedule = .ok [] := rfl
  have hgap : 1 < (meetingModel.withHorizon 4).horizon := by decide
  have hidle : ∀ a ∈ patientSchedule.messages, a.time ≠ 1 := by decide
  obtain ⟨hshorter, hcost⟩ := closeGap_valid hbank hbuilt hvalid hgap hidle
  exact ⟨hbank, hbuilt, hvalid, hgap, hidle, rfl, hshorter, hcost⟩

end ChainPropagation
