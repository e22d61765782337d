import Mathlib.Algebra.Ring.Nat
import ChainPropagation.Proofs.Earliest
import ChainPropagation.Proofs.LightCone
import ChainPropagation.Proofs.Needed

/-!
# What the figures say

`Model.traffic` counts messages, measures payloads and looks for the first time at
which both endpoints hold everything.  Its one weak spot is the question whether a
message carries just its sender's own result, since the result of a node past the
capacity of sets cannot be written down: on a built model there are figures for a
schedule exactly if no sender is such a node (`traffic_total_iff`).  All other events
may be as odd as they like.

For a valid schedule the figures fit together (`traffic_coherent`).  Nothing is
forgotten, so from the time of completion on both endpoints hold everything; and a
result takes at least one step from its node to an endpoint, so that the last
execution comes before completion.

## Main results

* `exists_traffic` — the figures, each by itself.
* `traffic_total_iff` — when there are figures, and what they add up to.
* `traffic_coherent` — how the figures of a valid schedule fit together.
-/

namespace ChainPropagation

/-! ## Sums and payloads -/

/-- Numbers of entries of one kind each, which together are the entries of all these
kinds. -/
theorem sum_countP_eq {α : Type} (kind : α → Nat) (entries : List α) (kinds : Nat) :
    ((List.range kinds).map fun k => entries.countP (kind · == k)).sum =
      entries.countP (kind · < kinds) := by
  have hone : ∀ k, entries.countP (kind · < k + 1) =
      entries.countP (kind · < k) + entries.countP (kind · == k) := by
    intro k
    induction entries with
    | nil => rfl
    | cons a entries ih =>
        simp only [List.countP_cons, ih, decide_eq_true_eq, beq_iff_eq]
        split <;> split <;> split <;> omega
  induction kinds with
  | zero => simp
  | succ k ih =>
      rw [List.range_succ, List.map_append, List.sum_append, ih, hone]
      simp

namespace Message

variable {a : Message}

theorem carriesOwnOnly_eq (h : a.sender < NodeSet.capacity) :
    a.carriesOwnOnly = .ok (a.payload == .singleton a.sender) := by
  unfold carriesOwnOnly NodeSet.add
  rw [if_pos h]
  rfl

theorem lt_of_carriesOwnOnly {own : Bool} (h : a.carriesOwnOnly = .ok own) :
    a.sender < NodeSet.capacity := by
  unfold carriesOwnOnly NodeSet.add at h
  split at h
  · assumption
  · cases h

end Message

namespace Model

variable {m : Model} {s : Schedule}

/-- A message of a lawful schedule carries something, and no more than all results. -/
theorem Lawful.payload_size (h : m.Lawful s) {a : Message} (ha : a ∈ s.messages) :
    1 ≤ a.payload.size ∧ a.payload.size ≤ m.nodes - 2 := by
  rw [NodeSet.size_eq_length_toList]
  constructor
  · obtain ⟨result, hcarries⟩ := h.nonempty a ha
    exact List.length_pos_of_mem (NodeSet.mem_toList.2 hcarries)
  · have hinner : a.payload.toList ⊆ m.chain.inner := by
      intro result hresult
      have hheld := h.held a ha result (NodeSet.mem_toList.1 hresult)
      exact Chain.mem_inner.2 (h.orderly.inner_of_holds hheld)
    have hle := (List.subperm_of_subset (NodeSet.nodup_toList _) hinner).length_le
    rw [Chain.inner, List.length_range'] at hle
    exact hle

/-! ## When both endpoints hold everything -/

/-- The rows of a valid schedule are complete from the time of completion on. -/
theorem Lawful.completeAt_iff_le (h : m.Lawful s) (hm : m.WellFormed) : ∃ done ≤ m.horizon,
    (s.table m.nodes m.horizon).completion m.chain.resultSet m.chain.farEnd = .ok (some done) ∧
      ∀ time ≤ m.horizon, m.CompleteAt (s.table m.nodes m.horizon) time ↔ done ≤ time := by
  have hcovers : m.Covers (s.table m.nodes m.horizon) := covers_table s
  have hlast : m.CompleteAt (s.table m.nodes m.horizon) m.horizon :=
    (h.orderly.completeAt_iff hm (Nat.le_refl _)).2 h.complete
  obtain ⟨done, hdone⟩ := exists_completion hm hcovers (Nat.le_refl _) hlast
  obtain ⟨hle, hcomplete, hfirst⟩ := (completion_eq_some_iff hm hcovers).1 hdone
  refine ⟨done, hle, hdone, fun time htime => ⟨fun hthere => ?_, fun hlater => ?_⟩⟩
  · exact Nat.not_lt.1 fun hearly => hfirst time hearly hthere
  · have hends := (h.orderly.completeAt_iff hm hle).1 hcomplete
    refine (h.orderly.completeAt_iff hm htime).2 fun result hinner => ?_
    exact ⟨(hends result hinner).1.mono hlater, (hends result hinner).2.mono hlater⟩

/-- A result takes a step at least to get from its node to an endpoint, so that all
nodes have executed before everything is there. -/
theorem Lawful.lt_of_completeAt (h : m.Lawful s) (hm : m.WellFormed) {done : Nat}
    (hdone : done ≤ m.horizon) (hcomplete : m.CompleteAt (s.table m.nodes m.horizon) done)
    {e : Execution} (he : e ∈ s.executions) : e.time < done := by
  have hinner := h.inner e he
  have hholds := ((h.orderly.completeAt_iff hm hdone).1 hcomplete e.node hinner).1
  obtain ⟨start, hstart, hle⟩ := hholds.within_cone h.orderly.isLocal
  have hsame : start = e.time := h.orderly.execution_unique hstart he
  have hpos : 0 < e.node := (Chain.isInner_iff.1 hinner).1
  unfold Chain.hops at hle
  omega

/-- With an intermediate node there is a last execution. -/
theorem Lawful.exists_latestExecution (h : m.Lawful s) (hthree : 3 ≤ m.nodes) :
    ∃ e ∈ s.executions, s.latestExecution = some e.time := by
  have hinner : m.chain.isInner 1 = true := Chain.isInner_iff.2 ⟨Nat.one_pos, hthree⟩
  have hsome : 0 < s.executions.countP (·.node == 1) := by
    rw [h.once 1 hinner]
    exact Nat.one_pos
  obtain ⟨first, hfirst, _⟩ := List.countP_pos_iff.1 hsome
  cases hlatest : s.latestExecution with
  | none =>
      rw [Schedule.latestExecution, List.max?_eq_none_iff, List.map_eq_nil_iff] at hlatest
      rw [hlatest] at hfirst
      cases hfirst
  | some last =>
      obtain ⟨hmem, _⟩ := List.max?_eq_some_iff.1 hlatest
      obtain ⟨e, he, rfl⟩ := List.mem_map.1 hmem
      exact ⟨e, he, rfl⟩

/-! ## The figures -/

/-- The figures that belong to a schedule: counts of messages, and what is read from
the replay. -/
structure Figures (m : Model) (s : Schedule) (t : Traffic) : Prop where
  cost_eq : t.cost = s.messages.length
  own_eq : t.own = s.messages.countP fun a => a.payload == .singleton a.sender
  forwarded_eq : t.forwarded = t.cost - t.own
  bySender_eq : t.bySender =
    (List.range m.nodes).map fun node => s.messages.countP (·.sender == node)
  largest_eq : t.largestPayload = (s.messages.map (·.payload.size)).foldl max 0
  completion_eq : (s.table m.nodes m.horizon).completion m.chain.resultSet m.chain.farEnd =
    .ok t.completion
  latest_eq : t.latestExecution = s.latestExecution

/-- If the own result of each sender can be written down, there are figures. -/
theorem exists_traffic (hm : m.WellFormed) (hs : m.Storable)
    (hsenders : ∀ a ∈ s.messages, a.sender < NodeSet.capacity) :
    ∃ t, m.traffic s = .ok t ∧ m.Figures s t := by
  have hown : s.messages.mapM Message.carriesOwnOnly =
      .ok (s.messages.map fun a => a.payload == .singleton a.sender) :=
    mapM_eq_ok fun a ha => Message.carriesOwnOnly_eq (hsenders a ha)
  have hcompletion := completion_eq_ok hm (covers_table (m := m) s)
  rw [traffic, hown, replay_eq hm hs, Chain.resultSetChecked_eq hm.two_le hm.le_capacity,
    Chain.farEndChecked_eq hm.two_le]
  simp only [ok_bind]
  rw [hcompletion]
  refine ⟨_, rfl, ?_⟩
  exact
    { cost_eq := rfl
      own_eq := by
        rw [List.count, List.countP_map]
        exact List.countP_congr fun a _ => by simp
      forwarded_eq := rfl
      bySender_eq := rfl
      largest_eq := rfl
      completion_eq := hcompletion
      latest_eq := rfl }

/-- There are figures only if the own result of every sender can be written down. -/
theorem lt_of_traffic {t : Traffic} (h : m.traffic s = .ok t) :
    ∀ a ∈ s.messages, a.sender < NodeSet.capacity := by
  obtain ⟨_, hown, _⟩ := bind_eq_ok.1 h
  intro a ha
  obtain ⟨_, hcarries⟩ := exists_of_mapM hown a ha
  exact Message.lt_of_carriesOwnOnly hcarries

namespace Figures

variable {t : Traffic}

theorem own_add_forwarded (h : m.Figures s t) : t.own + t.forwarded = t.cost := by
  have hle : t.own ≤ t.cost := by
    rw [h.own_eq, h.cost_eq]
    exact List.countP_le_length
  rw [h.forwarded_eq]
  exact Nat.add_sub_cancel' hle

theorem sum_bySender (h : m.Figures s t) :
    t.bySender.sum = s.messages.countP (·.sender < m.nodes) := by
  rw [h.bySender_eq]
  exact sum_countP_eq Message.sender s.messages m.nodes

/-- The senders of a lawful schedule are nodes of the chain, so each message counts for
one of them. -/
theorem sum_bySender_of_lawful (h : m.Figures s t) (hlaw : m.Lawful s) :
    t.bySender.sum = t.cost := by
  rw [h.sum_bySender, h.cost_eq, List.countP_eq_length]
  exact fun a ha => decide_eq_true (hlaw.beside a ha).1

theorem largestPayload_of_lawful (h : m.Figures s t) (hlaw : m.Lawful s)
    (hsome : s.messages ≠ []) : 1 ≤ t.largestPayload ∧ t.largestPayload ≤ m.nodes - 2 := by
  have hbound : ∀ most, t.largestPayload ≤ most ↔ ∀ a ∈ s.messages, a.payload.size ≤ most := by
    intro most
    rw [h.largest_eq, foldl_max_le_iff, List.forall_mem_map, and_iff_right (Nat.zero_le most)]
  constructor
  · obtain ⟨a, ha⟩ := List.exists_mem_of_ne_nil _ hsome
    exact Nat.le_trans (hlaw.payload_size ha).1 ((hbound _).1 (Nat.le_refl _) a ha)
  · exact (hbound _).2 fun a ha => (hlaw.payload_size ha).2

end Figures

end Model

/-- A built model has figures for a schedule exactly if each sender fits into a set,
whatever else the events are.  Every message is either the sender's own result or
forwards something, and the messages counted by sender are those whose senders are
nodes of the chain. -/
theorem traffic_total_iff {p : Problem} {bank : RuleBank} {m : Model}
    (h : p.model bank = .ok m) (s : Schedule) :
    ((∃ t, m.traffic s = .ok t) ↔ ∀ a ∈ s.messages, a.sender < NodeSet.capacity) ∧
      ∀ t, m.traffic s = .ok t → t.own + t.forwarded = t.cost ∧ t.cost = s.messages.length ∧
        t.bySender.sum = s.messages.countP (·.sender < m.nodes) := by
  have hfigures : (∀ a ∈ s.messages, a.sender < NodeSet.capacity) →
      ∃ t, m.traffic s = .ok t ∧ m.Figures s t :=
    Model.exists_traffic (wellFormed_of_model h) (storable_of_model h)
  constructor
  · constructor
    · rintro ⟨t, ht⟩
      exact Model.lt_of_traffic ht
    · intro hsenders
      obtain ⟨t, ht, _⟩ := hfigures hsenders
      exact ⟨t, ht⟩
  · intro t ht
    obtain ⟨t', ht', hsame⟩ := hfigures (Model.lt_of_traffic ht)
    have heq : t' = t := Except.ok.inj (ht'.symm.trans ht)
    rw [heq] at hsame
    exact ⟨hsame.own_add_forwarded, hsame.cost_eq, hsame.sum_bySender⟩

/-- Events outside the chain and past every horizon; of the messages only the first
one has a sender in the chain of the meeting. -/
def strayMessages : Schedule where
  executions := [⟨1, 0⟩, ⟨1, 0⟩, ⟨99, 2⟩, ⟨4, 18446744073709551615⟩]
  messages := [⟨1, 99, 0, .singleton 1⟩, ⟨63, 2, 18446744073709551615, .singleton 63⟩,
    ⟨7, 7, 3, ∅⟩]

/-- They are counted all the same. -/
theorem strayMessages_counted :
    meeting.model .standard = .ok meetingModel ∧
      ∃ t, meetingModel.traffic strayMessages = .ok t ∧ t.own + t.forwarded = t.cost ∧
        t.cost = 3 ∧ t.bySender.sum = 1 := by
  have hbuilt : meeting.model .standard = .ok meetingModel := rfl
  obtain ⟨hiff, hsums⟩ := traffic_total_iff hbuilt strayMessages
  obtain ⟨t, ht⟩ := hiff.2 (by decide)
  obtain ⟨hparts, hcost, hsent⟩ := hsums t ht
  exact ⟨hbuilt, t, ht, hparts, hcost, hsent⟩

/-- The schedule of the meeting, and a message from a node far outside the chain. -/
def remoteMessage : Schedule := meetingSchedule.withMessage ⟨64, 1, 0, .singleton 1⟩

/-- Its sender's own result cannot be written down, so there are no figures, although
nodes outside the chain are not counted for anything. -/
theorem remoteMessage_uncounted :
    meeting.model .standard = .ok meetingModel ∧
      meetingModel.traffic remoteMessage = .error (.idTooLarge 64) :=
  ⟨rfl, rfl⟩

/-- The figures of a valid schedule fit together.  Every message counts for one node.
From the time of completion on, and not before, both endpoints hold every result; the
last execution is earlier than that.  A message carries a result at least, and at
most all there are. -/
theorem traffic_coherent {p : Problem} {bank : RuleBank} {m : Model}
    (hbank : ∀ rule ∈ RuleBank.standard.rules, rule ∈ bank.rules) (h : p.model bank = .ok m)
    {s : Schedule} (hvalid : m.isValid s = .ok true) :
    ∃ t table done, m.traffic s = .ok t ∧ m.replay s = .ok table ∧
      t.own + t.forwarded = t.cost ∧ t.cost = s.messages.length ∧ t.bySender.sum = t.cost ∧
      t.completion = some done ∧ done ≤ m.horizon ∧
      (∀ time ≤ m.horizon, m.CompleteAt table time ↔ done ≤ time) ∧
      (3 ≤ m.nodes → ∃ last, t.latestExecution = some last ∧ last < done) ∧
      (s.messages ≠ [] → 1 ≤ t.largestPayload ∧ t.largestPayload ≤ m.nodes - 2) := by
  have hm := wellFormed_of_model h
  have hs := storable_of_model h
  rw [← bank_of_model h] at hbank
  have hlaw : m.Lawful s := (Model.decides_isValid hm hs hbank s).of_eq_true hvalid
  have hsenders : ∀ a ∈ s.messages, a.sender < NodeSet.capacity := fun a ha =>
    Nat.lt_of_lt_of_le (hlaw.beside a ha).1 hm.le_capacity
  obtain ⟨t, ht, hfigures⟩ := Model.exists_traffic hm hs hsenders
  obtain ⟨done, hle, hdone, hrows⟩ := hlaw.completeAt_iff_le hm
  have hcomplete : m.CompleteAt (s.table m.nodes m.horizon) done :=
    (hrows done hle).2 (Nat.le_refl _)
  refine ⟨t, _, done, ht, Model.replay_eq hm hs s, hfigures.own_add_forwarded, hfigures.cost_eq,
    hfigures.sum_bySender_of_lawful hlaw,
    Except.ok.inj (hfigures.completion_eq.symm.trans hdone), hle, hrows,
    fun hthree => ?_, hfigures.largestPayload_of_lawful hlaw⟩
  obtain ⟨e, he, hlatest⟩ := hlaw.exists_latestExecution hthree
  exact ⟨e.time, hfigures.latest_eq.trans hlatest, hlaw.lt_of_completeAt hm hle hcomplete he⟩

/-- The figures of the meeting: with six messages it is complete before time 4, and its
last execution comes earlier. -/
theorem meetingSchedule_figured :
    (∀ rule ∈ RuleBank.standard.rules, rule ∈ RuleBank.standard.rules) ∧
      meeting.model .standard = .ok meetingModel ∧
      meetingModel.isValid meetingSchedule = .ok true ∧
      ∃ t done last, meetingModel.traffic meetingSchedule = .ok t ∧ t.cost = 6 ∧
        t.bySender.sum = 6 ∧ t.completion = some done ∧ done ≤ 3 ∧
        t.latestExecution = some last ∧ last < done ∧
        1 ≤ t.largestPayload ∧ t.largestPayload ≤ 3 := by
  have hbank : ∀ rule ∈ RuleBank.standard.rules, rule ∈ RuleBank.standard.rules :=
    fun _ hrule => hrule
  have hbuilt : meeting.model .standard = .ok meetingModel := rfl
  have hvalid : meetingModel.isValid meetingSchedule = .ok true := rfl
  obtain ⟨t, _, done, ht, _, _, hcost, hsum, hdone, hle, _, hlast, hsizes⟩ :=
    traffic_coherent hbank hbuilt hvalid
  obtain ⟨last, hlatest, hearlier⟩ := hlast (by decide)
  obtain ⟨hpositive, hmost⟩ := hsizes (by decide)
  exact ⟨hbank, hbuilt, hvalid, t, done, last, ht, hcost, hsum.trans hcost, hdone, hle, hlatest,
    hearlier, hpositive, hmost⟩

end ChainPropagation
