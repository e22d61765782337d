import ChainPropagation.Proofs.LightCone
import ChainPropagation.Proofs.Normal
import ChainPropagation.Proofs.Sweep

/-!
# The order in which events are listed

Several checks read a schedule in the order in which it lists its events: the first
entry for a node says when it executes, and a message is a duplicate of the ones
before it.  Still the order makes no difference.  The replay asks for events and not
for their places (`SameEvents.table_eq`).  The rules together ask for lawful
schedules, and a schedule that lists the same events differently is lawful as well.

In a lawful schedule no two messages go the same way at the same time, so that there
is one way only to put the events in order (`Relisted.inOrder_eq`).
-/

namespace ChainPropagation

/-! ## Events in order -/

namespace Execution

theorem precedes_antisymm {a b : Execution} (hab : a.precedes b = true)
    (hba : b.precedes a = true) : a = b := by
  rw [precedes_iff] at hab hba
  obtain ⟨node, time⟩ := a
  obtain ⟨node', time'⟩ := b
  simp only [Execution.mk.injEq] at hab hba ⊢
  omega

end Execution

theorem Message.Before.asymm {a b : Message} (hab : a.Before b) : ¬ b.Before a := by
  unfold Message.Before at hab ⊢
  omega

theorem Schedule.pairwise_precedes_inOrder (s : Schedule) :
    s.inOrder.executions.Pairwise (Execution.precedes · · = true) := by
  refine pairwise_sorted (fun a b => ?_) (fun a b c hab hbc => ?_) s.executions
  · rw [Execution.precedes_iff, Execution.precedes_iff]
    omega
  · rw [Execution.precedes_iff] at hab hbc ⊢
    omega

/-! ## The same events in another order -/

namespace Schedule

/-- Two schedules list the same events, each as often as the other does. -/
structure Relisted (s s' : Schedule) : Prop where
  executions : s.executions.Perm s'.executions
  messages : s.messages.Perm s'.messages

theorem relisted_inOrder (s : Schedule) : s.Relisted s.inOrder where
  executions := (sorted_perm Execution.precedes s.executions).symm
  messages := (sorted_perm Message.precedes s.messages).symm

namespace Relisted

variable {m : Model} {s s' : Schedule}

theorem symm (h : s.Relisted s') : s'.Relisted s where
  executions := h.executions.symm
  messages := h.messages.symm

theorem sameEvents (h : s.Relisted s') (m : Model) : m.SameEvents s s' where
  executions _ _ := h.executions.mem_iff
  messages _ _ _ := h.messages.mem_iff

theorem lawful (h : s.Relisted s') (hlaw : m.Lawful s) : m.Lawful s' := by
  have hholds : ∀ {node result time}, s.Holds node result time → s'.Holds node result time :=
    (holds_congr h.executions h.messages).1
  refine (hlaw.orderly.of_perm h.executions h.messages).lawful fun node hinner => ?_
  exact ⟨hholds (hlaw.complete node hinner).1, hholds (hlaw.complete node hinner).2⟩

theorem lawful_iff (h : s.Relisted s') : m.Lawful s ↔ m.Lawful s' :=
  ⟨h.lawful, h.symm.lawful⟩

/-- If no message is repeated, the events can be put in order in one way only. -/
theorem inOrder_eq (h : s.Relisted s') (hdistinct : (s.messages.map Message.slot).Nodup) :
    s.inOrder = s'.inOrder := by
  have hexec : s.inOrder.executions.Perm s'.inOrder.executions :=
    (s.relisted_inOrder.executions.symm.trans h.executions).trans s'.relisted_inOrder.executions
  have hsent : s.inOrder.messages.Perm s'.inOrder.messages :=
    (s.relisted_inOrder.messages.symm.trans h.messages).trans s'.relisted_inOrder.messages
  have hdistinct' : (s'.messages.map Message.slot).Nodup :=
    (h.messages.map _).nodup_iff.1 hdistinct
  have hexecutions : s.inOrder.executions = s'.inOrder.executions :=
    hexec.eq_of_pairwise (fun _ _ _ _ => Execution.precedes_antisymm)
      s.pairwise_precedes_inOrder s'.pairwise_precedes_inOrder
  have hmessages : s.inOrder.messages = s'.inOrder.messages :=
    hsent.eq_of_pairwise (fun _ _ _ _ hab hba => absurd hba hab.asymm)
      (s.pairwise_before_inOrder hdistinct) (s'.pairwise_before_inOrder hdistinct')
  exact congrArg₂ Schedule.mk hexecutions hmessages

end Relisted

end Schedule

/-- Two schedules that list the same events in different orders have the same replay,
are both valid or both not, and if they are valid, then they are the same schedule once
they are put in order, which is valid too.  The bank may ask for more than the standard
rules. -/
theorem listing_irrelevant {p : Problem} {bank : RuleBank} {m : Model}
    (hbank : ∀ rule ∈ RuleBank.standard.rules, rule ∈ bank.rules) (h : p.model bank = .ok m)
    {s s' : Schedule} (hrelisted : s.Relisted s') :
    (∃ table, m.replay s = .ok table ∧ m.replay s' = .ok table) ∧
      ∃ valid, m.isValid s = .ok valid ∧ m.isValid s' = .ok valid ∧
        (valid = true → s.inOrder = s'.inOrder ∧ m.isValid s.inOrder = .ok true) := by
  have hm := wellFormed_of_model h
  have hs := storable_of_model h
  rw [← bank_of_model h] at hbank
  constructor
  · refine ⟨s.table m.nodes m.horizon, Model.replay_eq hm hs s, ?_⟩
    rw [Model.replay_eq hm hs s', (hrelisted.sameEvents m).table_eq hm]
  · have hjudged := Model.decides_isValid hm hs hbank
    obtain ⟨valid, hvalid, hlaw⟩ := hjudged s
    have hsame : m.isValid s = m.isValid s' :=
      (hjudged s).eq_of_iff (hjudged s') hrelisted.lawful_iff
    refine ⟨valid, hvalid, hsame ▸ hvalid, fun htrue => ?_⟩
    have hlawful : m.Lawful s := hlaw.1 htrue
    exact ⟨hrelisted.inOrder_eq hlawful.distinct,
      (hjudged s.inOrder).eq_true (s.relisted_inOrder.lawful hlawful)⟩

/-- The schedule of the meeting from back to front. -/
def meetingBackwards : Schedule where
  executions := meetingSchedule.executions.reverse
  messages := meetingSchedule.messages.reverse

/-- It has the same replay, is valid as well, and in order it is the schedule of the
meeting in order. -/
theorem meetingBackwards_valid :
    (∀ rule ∈ RuleBank.standard.rules, rule ∈ (RuleBank.standard.add .rankZeroAnnounce).rules) ∧
      meeting.model (RuleBank.standard.add .rankZeroAnnounce) = .ok announcedMeeting ∧
      meetingSchedule.Relisted meetingBackwards ∧
      (∃ table, announcedMeeting.replay meetingSchedule = .ok table ∧
        announcedMeeting.replay meetingBackwards = .ok table) ∧
      announcedMeeting.isValid meetingBackwards = .ok true ∧
      meetingSchedule.inOrder = meetingBackwards.inOrder := by
  have hbank : ∀ rule ∈ RuleBank.standard.rules,
      rule ∈ (RuleBank.standard.add .rankZeroAnnounce).rules :=
    fun _ hrule => RuleBank.mem_rules_add.2 (.inl hrule)
  have hbuilt : meeting.model (RuleBank.standard.add .rankZeroAnnounce) = .ok announcedMeeting :=
    rfl
  have hrelisted : meetingSchedule.Relisted meetingBackwards :=
    { executions := (List.reverse_perm _).symm
      messages := (List.reverse_perm _).symm }
  have hvalid : announcedMeeting.isValid meetingSchedule = .ok true := rfl
  obtain ⟨hreplayed, valid, hjudged, hbackwards, hinOrder⟩ :=
    listing_irrelevant hbank hbuilt hrelisted
  have htrue : valid = true := Except.ok.inj (hjudged.symm.trans hvalid)
  exact ⟨hbank, hbuilt, hrelisted, hreplayed, htrue ▸ hbackwards, (hinOrder htrue).1⟩

end ChainPropagation
