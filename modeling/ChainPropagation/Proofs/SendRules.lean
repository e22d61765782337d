import ChainPropagation.Proofs.Allowed
import ChainPropagation.Proofs.Earliest
import ChainPropagation.Proofs.Operations

/-!
# What is allowed and what the rules on messages say

While a draft is made, `Model.canSend` says whether a message may be sent, from what
is held at present.  Afterwards two rules judge the messages of the schedule, one of
them by the table that was set down.  Both come to the same for a message that carries
all that its sender holds, as the row of the present time says just that.

With one exception: the rule also forbids to repeat a message, and `Model.canSend` does
not look back at what was sent before.  It need not, as each link is decided on once in
a step, and what would be repeated tells its receiver nothing new.  So the question is
still answered with yes then, and the rule reports the repetition, but nothing else.

## Main results

* `messageBreaches_append` — what is reported about a message at the end of a list.
* `canSend_exact` — `Model.canSend` against the rules, at every draft.
-/

namespace ChainPropagation

/-! ## One message more -/

namespace Model

variable {m : Model} {p : Possession}

/-- What is reported about the last message does not change what is reported about
those before. -/
theorem messageBreaches_append {results : NodeSet} {a : Message} {own : List Breach}
    (hown : m.payloadBreaches p a = .ok own) (rest : List Message) :
    ∀ (earlier : List Message) (breaches : List Breach),
      m.messageBreaches p results earlier rest = .ok breaches →
      m.messageBreaches p results earlier (rest ++ [a]) =
        .ok (breaches ++ (formBreaches results (rest.reverse ++ earlier) a ++ own)) := by
  induction rest with
  | nil =>
      intro earlier breaches h
      cases h
      rw [List.nil_append, messageBreaches, hown]
      simp [messageBreaches]
  | cons b rest ih =>
      intro earlier breaches h
      obtain ⟨first, hfirst, h⟩ := bind_eq_ok.1 h
      obtain ⟨others, hothers, h⟩ := bind_eq_ok.1 h
      cases h
      have hbefore : (b :: rest).reverse ++ earlier = rest.reverse ++ b :: earlier := by simp
      rw [List.cons_append, messageBreaches, hfirst, ok_bind, ih (b :: earlier) others hothers,
        hbefore]
      exact congrArg Except.ok (List.append_assoc _ _ _).symm

/-- With one message more the two rules on messages report the same, and after that
the given breaches; the one on links reports nothing more. -/
def AddsBreaches (m : Model) (s : Schedule) (p : Possession) (a : Message)
    (more : List Breach) : Prop :=
  ∃ breaches, m.breachesOf s p .sendFeasibility = .ok breaches ∧
    m.breachesOf (s.withMessage a) p .sendFeasibility = .ok (breaches ++ more) ∧
    m.breachesOf (s.withMessage a) p .adjacency = m.breachesOf s p .adjacency

/-- What is reported about a message that carries results of the chain, just what the
table has for its sender. -/
theorem addsBreaches_iff (hm : m.WellFormed) (hp : m.Covers p) (s : Schedule) {a : Message}
    (htime : a.time ≤ m.horizon)
    (hresults : ∀ result, a.payload.contains result = true → m.chain.isInner result = true)
    (hfound : a.sender < m.nodes → p.cell a.time a.sender = a.payload) {more : List Breach} :
    m.AddsBreaches s p a more ↔ m.chain.sideBySide a.sender a.receiver = true ∧
      more = (if ∃ b ∈ s.messages, a.slot = b.slot then
          [.duplicateMessage a.sender a.receiver a.time] else []) ++
        (if a.payload.isEmpty then [.emptyMessage a.sender a.receiver a.time] else []) := by
  obtain ⟨breaches, hbreaches, _⟩ := reports_sendBreaches hm hp s
  have hown : m.payloadBreaches p a = .ok [] := by
    refine (reports_payloadBreaches hp a).eq_nil_iff.2 ⟨htime, fun hsender result hcarries => ?_⟩
    rw [hfound hsender]
    exact hcarries
  have hsubset : a.payload.isSubset m.chain.resultSet = true :=
    (Chain.isSubset_resultSet_iff hm.le_capacity).2 hresults
  have hrepeats : s.messages.reverse.any (sameSlot a) = true ↔
      ∃ b ∈ s.messages, a.slot = b.slot := by
    simp only [List.any_reverse, List.any_eq_true, sameSlot_iff]
  have hextended : m.breachesOf (s.withMessage a) p .sendFeasibility =
      .ok (breaches ++ ((if ∃ b ∈ s.messages, a.slot = b.slot then
          [.duplicateMessage a.sender a.receiver a.time] else []) ++
        (if a.payload.isEmpty then [.emptyMessage a.sender a.receiver a.time] else []))) := by
    have hlist : m.messageBreaches p m.chain.resultSet [] s.messages = .ok breaches := by
      rwa [sendBreaches, Chain.resultSetChecked_eq hm.two_le hm.le_capacity] at hbreaches
    have happend := messageBreaches_append hown s.messages [] breaches hlist
    rw [breachesOf, sendBreaches, Chain.resultSetChecked_eq hm.two_le hm.le_capacity]
    refine happend.trans ?_
    simp only [formBreaches, hsubset, if_true, List.append_nil, hrepeats]
  have hadjacency : m.breachesOf (s.withMessage a) p .adjacency = m.breachesOf s p .adjacency ↔
      m.chain.sideBySide a.sender a.receiver = true := by
    simp only [breachesOf, adjacencyBreaches, Schedule.withMessage, List.filter_append,
      List.map_append, Except.ok.injEq, List.append_right_eq_self, List.map_eq_nil_iff,
      List.filter_eq_nil_iff, List.mem_singleton, forall_eq]
    simp
  constructor
  · rintro ⟨sent, hsent, hmore, hlinks⟩
    have hsame : sent = breaches := Except.ok.inj (hsent.symm.trans hbreaches)
    rw [hextended, hsame] at hmore
    exact ⟨hadjacency.1 hlinks, (List.append_cancel_left (Except.ok.inj hmore)).symm⟩
  · rintro ⟨hbeside, rfl⟩
    exact ⟨breaches, hbreaches, hextended, hadjacency.2 hbeside⟩

end Model

/-! ## At a draft -/

namespace Draft

variable {m : Model} {d e f : Draft} {links : List (Nat × Nat)} {sender receiver : Nat}

/-- The message that a node can send now, with all that it holds. -/
def offer (d : Draft) (sender receiver : Nat) : Message where
  sender := sender
  receiver := receiver
  time := d.time
  payload := d.holding sender

/-- Operations keep the size of the table. -/
theorem Operates.covers (hop : Operates m d e) (hcovers : m.Covers d.possession) :
    m.Covers e.possession := by
  cases hop with
  | executes done => exact covers_of_executeReady hcovers done
  | sends _ done =>
      rw [eq_sent_of_send done]
      exact hcovers
  | passes done =>
      obtain ⟨_, rfl⟩ := eq_delivered_of_passTime done
      exact hcovers

theorem covers_of_operates (hops : Relation.ReflTransGen (Operates m) d e)
    (hcovers : m.Covers d.possession) : m.Covers e.possession := by
  induction hops with
  | refl => exact hcovers
  | tail _ hop ih => exact hop.covers ih

/-- A link that a message went along just now is one that a message may be sent
along: its sender holds still what it held then. -/
theorem Consistent.canSend_of_sent (h : d.Consistent m) {b : Message}
    (hb : b ∈ d.messages.toList) (hnow : b.time = d.time) :
    m.canSend d b.sender b.receiver = .ok true := by
  obtain ⟨hbeside, _, ⟨result, hcarries⟩, hheld⟩ := h.sends b hb
  refine h.canSend_iff.2 ⟨hbeside, result, ?_⟩
  rw [h.contains_holding, ← hnow]
  exact hheld result hcarries

/-- The row of the present time is set down: it has what each node holds now. -/
def RowNoted (m : Model) (d : Draft) : Prop :=
  ∀ node < m.nodes, d.possession.read d.time node = .ok (d.holding node)

/-- It is set down with the executions of a step. -/
theorem Opens.rowNoted (hopens : Opens m d (d.Ready m) e) (hcovers : m.Covers d.possession)
    (hexec : m.executeReady d = .ok e) : e.RowNoted m := by
  have he := hopens.consistent
  intro node hnode
  rw [(covers_of_executeReady hcovers hexec).read_eq he.time_le hnode,
    he.cell_opened hcovers hexec he.time_le hnode, if_pos hopens.time_eq]

/-- Messages leave it alone. -/
theorem Sends.rowNoted (hsends : Sends m links e f) (hrow : e.RowNoted m) : f.RowNoted m := by
  induction hsends with
  | nil => exact hrow
  | cons _ sends _ ih =>
      rw [eq_sent_of_send sends] at ih
      exact ih hrow

/-- So it is set down at every point of a step after the executions. -/
theorem rowNoted_of_sends (hops : Relation.ReflTransGen (Operates m) (start m) d)
    (hm : m.WellFormed) (hs : m.Storable) (hexec : m.executeReady d = .ok e)
    (hsends : Sends m links e f) : f.RowNoted m := by
  have hd := (operations_at_least hops hm (consistent_start hs.horizon_lt)).1
  have hcovers := covers_of_operates hops (covers_start m)
  exact hsends.rowNoted ((hd.opens_of_executeReady hm hexec).rowNoted hcovers hexec)

/-- What the rules on messages report about a message that could be sent now. -/
theorem Consistent.addsBreaches_offer_iff (h : d.Consistent m) (hm : m.WellFormed)
    (hcovers : m.Covers d.possession) (hrow : d.RowNoted m) {more : List Breach} :
    m.AddsBreaches d.schedule d.possession (d.offer sender receiver) more ↔
      m.chain.sideBySide sender receiver = true ∧
        more = (if ∃ b ∈ d.schedule.messages, (sender, receiver, d.time) = b.slot then
            [.duplicateMessage sender receiver d.time] else []) ++
          (if (d.holding sender).isEmpty then [.emptyMessage sender receiver d.time] else []) := by
  refine Model.addsBreaches_iff hm hcovers d.schedule (a := d.offer sender receiver) h.time_le
    (fun result hcarries => ?_) (fun (hsender : sender < m.nodes) => ?_)
  · obtain ⟨time, hexec, _⟩ := ((h.contains_holding sender result).1 hcarries).executed
    exact (h.executes result time (h.mem_events.1 hexec)).1
  · have hread := hrow sender hsender
    rw [hcovers.read_eq h.time_le hsender] at hread
    exact Except.ok.inj hread

end Draft

/-- In every draft that operations lead to, once the row of the present time is set
down, it is known whether a message may be sent.  Along a link that was not used at the
present time it may be sent exactly if the rules on messages have nothing to add about it.
Along one that was used a message may always be sent, and what they add is that it is a
duplicate. -/
theorem canSend_exact {p : Problem} {bank : RuleBank} {m : Model} (h : p.model bank = .ok m)
    {blank d : Draft} (hblank : m.blankDraft = .ok blank)
    (hops : Relation.ReflTransGen (Draft.Operates m) blank d) (hrow : d.RowNoted m)
    (sender receiver : Nat) :
    (∃ allowed, m.canSend d sender receiver = .ok allowed) ∧
      ((∀ b ∈ d.messages.toList, b.slot ≠ (sender, receiver, d.time)) →
      (m.canSend d sender receiver = .ok true ↔
        m.AddsBreaches d.schedule d.possession (d.offer sender receiver) [])) ∧
      ((∃ b ∈ d.messages.toList, b.slot = (sender, receiver, d.time)) →
        m.canSend d sender receiver = .ok true ∧
          m.AddsBreaches d.schedule d.possession (d.offer sender receiver)
            [.duplicateMessage sender receiver d.time]) := by
  have hm := wellFormed_of_model h
  have hs := storable_of_model h
  have hstart := Draft.blankDraft_eq hs
  rw [hblank] at hstart
  cases hstart
  have hd := (Draft.operations_at_least hops hm (Draft.consistent_start hs.horizon_lt)).1
  have hcovers := Draft.covers_of_operates hops (Draft.covers_start m)
  have hused : (∃ b ∈ d.schedule.messages, (sender, receiver, d.time) = b.slot) ↔
      ∃ b ∈ d.messages.toList, b.slot = (sender, receiver, d.time) := by
    simp only [← (Draft.schedule_perm d).2.mem_iff, eq_comm]
    rfl
  obtain ⟨allowed, hallowed, _⟩ := hd.placed.decides_canSend sender receiver
  refine ⟨⟨allowed, hallowed⟩, ?_, ?_⟩
  · intro hunused
    have hnot : ¬ ∃ b ∈ d.schedule.messages, (sender, receiver, d.time) = b.slot := by
      rw [hused]
      rintro ⟨b, hb, hslot⟩
      exact hunused b hb hslot
    rw [hd.addsBreaches_offer_iff hm hcovers hrow, if_neg hnot, hd.canSend_iff,
      ← NodeSet.isEmpty_eq_false_iff]
    cases (d.holding sender).isEmpty <;> simp
  · rintro ⟨b, hb, hslot⟩
    have hcan : m.canSend d b.sender b.receiver = .ok true :=
      hd.canSend_of_sent hb (congrArg (fun slot => slot.2.2) hslot)
    have hsender : b.sender = sender := congrArg (fun slot => slot.1) hslot
    have hreceiver : b.receiver = receiver := congrArg (fun slot => slot.2.1) hslot
    rw [hsender, hreceiver] at hcan
    obtain ⟨hbeside, hsome⟩ := hd.canSend_iff.1 hcan
    refine ⟨hcan, (hd.addsBreaches_offer_iff hm hcovers hrow).2 ⟨hbeside, ?_⟩⟩
    rw [if_pos (hused.2 ⟨b, hb, hslot⟩), NodeSet.isEmpty_eq_false_iff.2 hsome]
    rfl

/-- One node between the endpoints, and time for one hop. -/
def relay : Problem := { nodes := 3, horizon := 1, ranks := [1, 0, 1] }

/-- The model of `relay` under the standard bank. -/
def relayModel : Model where
  chain := { nodes := 3 }
  ranks := .assign { nodes := 3 } [1, 0, 1]
  horizon := 1
  bank := .standard

/-- The node has executed. -/
def relayOpened : Draft where
  time := 0
  horizon := 1
  held := #[∅, .ofList [1], ∅]
  inbox := #[∅, ∅, ∅]
  executed := #[none, some 0, none]
  messages := #[]
  possession := { nodes := 3, horizon := 1, cells := #[∅, .ofList [1], ∅, ∅, ∅, ∅] }

/-- Then it has told node 0. -/
def relayTold : Draft := relayOpened.sent 1 0

theorem relayTold_reached : relay.model .standard = .ok relayModel ∧
    Relation.ReflTransGen (Draft.Operates relayModel) (.start relayModel) relayTold ∧
    relayTold.RowNoted relayModel := by
  have hbuilt : relay.model .standard = .ok relayModel := rfl
  have hopened : relayModel.executeReady (.start relayModel) = .ok relayOpened := rfl
  have hops := (Relation.ReflTransGen.single (Draft.Operates.executes hopened)).tail
    (@Draft.Operates.sends _ _ relayTold 1 0 rfl rfl)
  have hsends : Draft.Sends relayModel [(1, 0)] relayOpened relayTold := .cons rfl rfl .nil
  exact ⟨hbuilt, hops,
    Draft.rowNoted_of_sends .refl (wellFormed_of_model hbuilt) (storable_of_model hbuilt) hopened
      hsends⟩

/-- So it may tell the other endpoint, and no rule objects to that.  It may still tell
node 0, which would be a duplicate. -/
theorem relayTold_asked :
    relay.model .standard = .ok relayModel ∧
      relayModel.blankDraft = .ok (.start relayModel) ∧
      Relation.ReflTransGen (Draft.Operates relayModel) (.start relayModel) relayTold ∧
      relayTold.RowNoted relayModel ∧
      relayModel.canSend relayTold 1 2 = .ok true ∧
      relayModel.AddsBreaches relayTold.schedule relayTold.possession (relayTold.offer 1 2) [] ∧
      relayModel.canSend relayTold 1 0 = .ok true ∧
      relayModel.AddsBreaches relayTold.schedule relayTold.possession (relayTold.offer 1 0)
        [.duplicateMessage 1 0 0] := by
  obtain ⟨hbuilt, hops, hrow⟩ := relayTold_reached
  have hother := (canSend_exact hbuilt rfl hops hrow 1 2).2.1 (by decide)
  have hagain := (canSend_exact hbuilt rfl hops hrow 1 0).2.2 (by decide)
  exact ⟨hbuilt, rfl, hops, hrow, rfl, hother.1 rfl, hagain⟩

/-- A message that may be sent, and to which the rules object nevertheless. -/
theorem relayTold_repeats : relay.model .standard = .ok relayModel ∧
    Relation.ReflTransGen (Draft.Operates relayModel) (.start relayModel) relayTold ∧
    relayTold.RowNoted relayModel ∧ relayModel.canSend relayTold 1 0 = .ok true ∧
    ¬ relayModel.AddsBreaches relayTold.schedule relayTold.possession
      (relayTold.offer 1 0) [] := by
  obtain ⟨hbuilt, hops, hrow⟩ := relayTold_reached
  refine ⟨hbuilt, hops, hrow, rfl, ?_⟩
  rintro ⟨breaches, hbreaches, hmore, _⟩
  have hnone : breaches = [] := Except.ok.inj (hbreaches.symm.trans rfl)
  rw [hnone] at hmore
  cases hmore

end ChainPropagation
