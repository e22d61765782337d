import Mathlib.Logic.Relation
import ChainPropagation.Proofs.Needed

/-!
# Operations in any order

A step executes first and sends afterwards, each link once.  The measure
`Model.stillNeeded` asks for none of this: it may be taken in the middle of a
step, with results on their way, and nodes may execute after messages have been
sent, or messages be repeated.  Whatever the order, no operation brings the
messages sent together with those still needed down (`Operates.at_least`).

So the measure is a bound on every continuation from every such draft, and it is
exact where nothing is needed any more (`stillNeeded_admissible`).
-/

namespace ChainPropagation

namespace Draft

/-- One operation: all nodes execute that may, a message is sent that may be, or
time passes. -/
inductive Operates (m : Model) (d e : Draft) : Prop where
  | executes (done : m.executeReady d = .ok e) : Operates m d e
  | sends {sender receiver : Nat} (allowed : m.canSend d sender receiver = .ok true)
      (done : d.send sender receiver = .ok e) : Operates m d e
  | passes (done : d.passTime = .ok e) : Operates m d e

variable {m : Model} {d e : Draft}

theorem Operates.consistent (hop : Operates m d e) (hm : m.WellFormed) (h : d.Consistent m) :
    e.Consistent m := by
  cases hop with
  | executes done => exact (h.opens_of_executeReady hm done).consistent
  | sends allowed done =>
      obtain ⟨hbeside, hsome⟩ := h.canSend_iff.1 allowed
      rw [eq_sent_of_send done]
      exact h.sent hbeside hsome
  | passes done =>
      obtain ⟨hlt, rfl⟩ := eq_delivered_of_passTime done
      exact h.delivered (h.horizon_eq ▸ hlt)

theorem Operates.at_least (hop : Operates m d e) (hm : m.WellFormed) (h : d.Consistent m)
    {most : Nat} (hleast : d.AtLeast m most) : e.AtLeast m most := by
  cases hop with
  | executes done => exact hleast.opens h hm (h.opens_of_executeReady hm done)
  | sends allowed done =>
      obtain ⟨hbeside, hsome⟩ := h.canSend_iff.1 allowed
      rw [eq_sent_of_send done]
      exact hleast.sent h hm hbeside hsome
  | passes done =>
      obtain ⟨hlt, rfl⟩ := eq_delivered_of_passTime done
      exact hleast.delivered h hm (h.horizon_eq ▸ hlt)

/-- What any number of operations preserve. -/
theorem operations_at_least (hops : Relation.ReflTransGen (Operates m) d e) (hm : m.WellFormed)
    (h : d.Consistent m) : e.Consistent m ∧ ∀ most, d.AtLeast m most → e.AtLeast m most := by
  induction hops with
  | refl => exact ⟨h, fun _ hleast => hleast⟩
  | tail _ hop ih =>
      obtain ⟨hconsistent, hkeeps⟩ := ih
      exact ⟨hop.consistent hm hconsistent,
        fun most hleast => hop.at_least hm hconsistent (hkeeps most hleast)⟩

end Draft

/-- The bound of the search on the messages of a completion, in every draft that
operations lead to.  It is 0 exactly if both endpoints have all results or will
have them next; no operation is refused that is allowed, and none brings the bound
down by more than the messages that it sends; so whatever completes the endpoints
sends at least so many. -/
theorem stillNeeded_admissible {p : Problem} {bank : RuleBank} {m : Model}
    (h : p.model bank = .ok m) {blank d : Draft} (hblank : m.blankDraft = .ok blank)
    (hops : Relation.ReflTransGen (Draft.Operates m) blank d) :
    ∃ needed, m.stillNeeded d = .ok needed ∧
      (needed = 0 ↔ ∀ result, m.chain.isInner result = true →
        (d.holdingNext 0).contains result = true ∧
          (d.holdingNext m.chain.farEnd).contains result = true) ∧
      (∃ e, m.executeReady d = .ok e) ∧
      (∀ sender receiver, ∃ allowed, m.canSend d sender receiver = .ok allowed ∧
        (allowed = true → ∃ e, d.send sender receiver = .ok e)) ∧
      (d.time < m.horizon → ∃ e, d.passTime = .ok e) ∧
      (∀ e, Draft.Operates m d e → ∃ more, m.stillNeeded e = .ok more ∧
        d.messages.size + needed ≤ e.messages.size + more) ∧
      ∀ e, Relation.ReflTransGen (Draft.Operates m) d e → e.endsHoldAll m.chain = .ok true →
        d.messages.size + needed ≤ e.messages.size := by
  have hm := wellFormed_of_model h
  have hs := storable_of_model h
  have hstart := Draft.blankDraft_eq hs
  rw [hblank] at hstart
  cases hstart
  have hd := (Draft.operations_at_least hops hm (Draft.consistent_start hs.horizon_lt)).1
  obtain ⟨first, last, hneeded, _⟩ := hd.stillNeeded_eq hm
  -- what `d` itself needs is kept as a least number from here on
  have hleast : d.AtLeast m (d.messages.size + (first + last)) :=
    ⟨first + last, hneeded, Nat.le_refl _⟩
  obtain ⟨executed, hexec, _⟩ := hd.executeReady_eq hm
  refine ⟨first + last, hneeded, hd.stillNeeded_eq_zero_iff hm hneeded, ⟨executed, hexec⟩,
    ?_, fun hlt => ⟨d.delivered, hd.passTime_eq hlt⟩, ?_, ?_⟩
  · intro sender receiver
    obtain ⟨allowed, hallowed, hiff⟩ := hd.placed.decides_canSend sender receiver
    exact ⟨allowed, hallowed, fun hyes => ⟨d.sent sender receiver, hd.send_eq (hiff.1 hyes).1⟩⟩
  · intro e hop
    exact hop.at_least hm hd hleast
  · intro e hmore hends
    obtain ⟨he, hkeeps⟩ := Draft.operations_at_least hmore hm hd
    exact (hkeeps _ hleast).le_size he hm ((he.fits.decides_endsHoldAll hm).of_eq_true hends)

/-- In the midst of the first step of the meeting, after a message that was sent
twice and executions that came to nothing. -/
theorem repeatedMeeting_needed : ∃ d, meeting.model .standard = .ok meetingModel ∧
    meetingModel.blankDraft = .ok (.start meetingModel) ∧
    Relation.ReflTransGen (Draft.Operates meetingModel) (.start meetingModel) d ∧
    d.messages.size = 2 ∧ meetingModel.stillNeeded d = .ok 5 ∧
    ∀ e, Relation.ReflTransGen (Draft.Operates meetingModel) d e →
      e.endsHoldAll meetingModel.chain = .ok true → 7 ≤ e.messages.size := by
  have hbuilt : meeting.model .standard = .ok meetingModel := rfl
  obtain ⟨d, hops, hsize, hneeded⟩ : ∃ d,
      Relation.ReflTransGen (Draft.Operates meetingModel) (.start meetingModel) d ∧
        d.messages.size = 2 ∧ meetingModel.stillNeeded d = .ok 5 := by
    have hexec : Draft.Operates meetingModel (.start meetingModel) _ := .executes rfl
    have htwice := ((Relation.ReflTransGen.single hexec).tail
      (@Draft.Operates.sends _ _ _ 1 2 rfl rfl)).tail (@Draft.Operates.sends _ _ _ 1 2 rfl rfl)
    exact ⟨_, htwice.tail (.executes rfl), rfl, by decide +kernel⟩
  obtain ⟨needed, hok, _, _, _, _, _, hbound⟩ := stillNeeded_admissible hbuilt rfl hops
  rw [hneeded] at hok
  cases hok
  rw [hsize] at hbound
  exact ⟨d, hbuilt, rfl, hops, hsize, hneeded, hbound⟩

end ChainPropagation
