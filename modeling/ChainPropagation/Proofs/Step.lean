import ChainPropagation.Proofs.Draft
import ChainPropagation.Proofs.Verdict
import ChainPropagation.Step

/-!
# One step of a draft

A step meets no fault on a consistent draft, and every question that it asks has
the answer that its name suggests: which nodes may execute (`decides_isReady`),
which messages are of use (`decides_isUseful`), whether the draft is done
(`decides_isDone`).  A draft is done as soon as both endpoints hold everything:
its announcements have been made by then, since every result has left its own
node to both sides.

## Main results

* `Consistent.beginStep_eq` — how a step begins.
* `Consistent.usefulLinks_eq` — the messages worth sending, each once.
* `Sound.send_eq` — a message that is worth sending keeps a draft sound; there
  was no other one on its way to the same node.
-/

namespace ChainPropagation

/-! ## Questions -/

/-- A question that meets no fault and has the right answer. -/
def Decides (question : Checked Bool) (fact : Prop) : Prop :=
  ∃ answer, question = .ok answer ∧ (answer = true ↔ fact)

namespace Decides

variable {α : Type} {question : Checked Bool} {fact other : Prop}

theorem congr (h : Decides question fact) (hiff : fact ↔ other) : Decides question other := by
  obtain ⟨answer, hok, hfact⟩ := h
  exact ⟨answer, hok, hfact.trans hiff⟩

theorem eq_true (h : Decides question fact) (hfact : fact) : question = .ok true := by
  obtain ⟨answer, hok, hiff⟩ := h
  rw [hok, hiff.2 hfact]

theorem of_eq_true (h : Decides question fact) (hyes : question = .ok true) : fact := by
  obtain ⟨answer, hok, hfact⟩ := h
  rw [hok] at hyes
  cases hyes
  exact hfact.1 rfl

theorem eq_false (h : Decides question fact) (hnot : ¬ fact) : question = .ok false := by
  obtain ⟨answer, hok, hiff⟩ := h
  cases answer with
  | true => exact absurd (hiff.1 rfl) hnot
  | false => exact hok

/-- Questions about the same have the same answer. -/
theorem eq_of_iff {asked : Checked Bool} (h : Decides question fact) (hasked : Decides asked other)
    (hiff : fact ↔ other) : question = asked := by
  by_cases hfact : fact
  · rw [h.eq_true hfact, hasked.eq_true (hiff.1 hfact)]
  · rw [h.eq_false hfact, hasked.eq_false fun hother => hfact (hiff.2 hother)]

/-- One question after another, as long as the answer is yes. -/
theorem ite {next : Checked Bool} (h : Decides question fact)
    (hnext : fact → Decides next other) :
    Decides (do if ← question then next else return false) (fact ∧ other) := by
  by_cases hfact : fact
  · rw [h.eq_true hfact]
    exact (hnext hfact).congr (by simp [hfact])
  · rw [h.eq_false hfact]
    exact ⟨false, rfl, by simp [hfact]⟩

theorem allM {ask : α → Checked Bool} {facts : α → Prop} {entries : List α}
    (h : ∀ a ∈ entries, Decides (ask a) (facts a)) :
    Decides (entries.allM ask) (∀ a ∈ entries, facts a) := by
  induction entries with
  | nil => exact ⟨true, rfl, by simp⟩
  | cons a entries ih =>
      rw [List.allM]
      by_cases hfact : facts a
      · rw [(h a (by simp)).eq_true hfact]
        exact (ih fun b hb => h b (by simp [hb])).congr (by simp [hfact])
      · rw [(h a (by simp)).eq_false hfact]
        exact ⟨false, rfl, by simp [hfact]⟩

theorem anyM {ask : α → Checked Bool} {facts : α → Prop} {entries : List α}
    (h : ∀ a ∈ entries, Decides (ask a) (facts a)) :
    Decides (entries.anyM ask) (∃ a ∈ entries, facts a) := by
  induction entries with
  | nil => exact ⟨false, rfl, by simp⟩
  | cons a entries ih =>
      rw [List.anyM]
      by_cases hfact : facts a
      · rw [(h a (by simp)).eq_true hfact]
        exact ⟨true, rfl, by simp [hfact]⟩
      · rw [(h a (by simp)).eq_false hfact]
        exact (ih fun b hb => h b (by simp [hb])).congr (by simp [hfact])

/-- To ask about the entries of a list one after another keeps those that the
answer is yes for. -/
theorem filter {keep : α → Checked Bool} {facts : α → Prop} {entries : List α}
    (h : ∀ a ∈ entries, Decides (keep a) (facts a)) :
    ∃ kept, Checked.filter keep entries = .ok kept ∧
      ∀ a, a ∈ kept ↔ a ∈ entries ∧ facts a := by
  induction entries with
  | nil => exact ⟨[], rfl, by simp⟩
  | cons a entries ih =>
      obtain ⟨others, hothers, hmem⟩ := ih fun b hb => h b (by simp [hb])
      by_cases hfact : facts a
      · refine ⟨a :: others, ?_, fun b => ?_⟩
        · rw [Checked.filter, (h a (by simp)).eq_true hfact, hothers]
          rfl
        · rw [List.mem_cons, List.mem_cons, hmem]
          constructor
          · rintro (rfl | hb)
            · exact ⟨.inl rfl, hfact⟩
            · exact ⟨.inr hb.1, hb.2⟩
          · rintro ⟨rfl | hb, hkeep⟩
            · exact .inl rfl
            · exact .inr ⟨hb, hkeep⟩
      · refine ⟨others, ?_, fun b => ?_⟩
        · rw [Checked.filter, (h a (by simp)).eq_false hfact, hothers]
          rfl
        · rw [hmem, List.mem_cons]
          constructor
          · exact fun hb => ⟨.inr hb.1, hb.2⟩
          · rintro ⟨rfl | hb, hkeep⟩
            · exact absurd hkeep hfact
            · exact ⟨hb, hkeep⟩

end Decides

namespace Draft

variable {m : Model} {d e : Draft}

/-! ## Executions -/

theorem decides_isReady_of_isInner (hm : m.WellFormed) (h : d.Fits m.chain.nodes m.horizon)
    {node : Nat} (hinner : m.chain.isInner node = true) :
    Decides (m.isReady d node) (d.Ready m node) := by
  have hlt : node < m.chain.nodes := Chain.lt_of_isInner hinner
  unfold Model.isReady
  rw [Chain.isInnerChecked_eq hm.two_le, hinner,
    executedAtChecked_eq (h.size_executed.symm ▸ hlt), holdingChecked_eq (h.size_held.symm ▸ hlt)]
  cases hexec : d.executedAt node with
  | some time =>
      refine ⟨false, by simp, ?_⟩
      apply iff_of_false (by decide)
      intro hready
      rw [hready.fresh] at hexec
      cases hexec
  | none =>
      rw [hm.rankOf_eq hlt, hm.awaitedBy_eq hlt]
      by_cases hzero : m.rank node = 0
      · refine ⟨d.time == 0, by simp [hzero], ?_⟩
        rw [beq_iff_eq]
        constructor
        · intro hstart
          exact
            { inner := hinner
              fresh := hexec
              at_once := fun _ => hstart
              holds := fun _ hwaits => absurd hwaits (hm.not_waits_of_rank_zero hzero) }
        · exact fun hready => hready.at_once hzero
      · refine ⟨(m.awaited node).isSubset (d.holding node), by simp [hzero], ?_⟩
        rw [hm.awaited_isSubset_iff hlt]
        constructor
        · intro hheld
          exact
            { inner := hinner
              fresh := hexec
              at_once := fun hz => absurd hz hzero
              holds := hheld }
        · exact fun hready => hready.holds

theorem decides_isReady (hm : m.WellFormed) (h : d.Fits m.chain.nodes m.horizon) (node : Nat) :
    Decides (m.isReady d node) (d.Ready m node) := by
  by_cases hinner : m.chain.isInner node = true
  · exact decides_isReady_of_isInner hm h hinner
  · refine ⟨false, ?_, iff_of_false (by decide) fun hready => hinner hready.inner⟩
    unfold Model.isReady
    rw [Chain.isInnerChecked_eq hm.two_le, Bool.eq_false_iff.2 hinner]
    rfl

/-- The draft after some nodes executed at the present time. -/
structure Opens (m : Model) (d : Draft) (who : Nat → Prop) (e : Draft) : Prop where
  consistent : e.Consistent m
  time_eq : e.time = d.time
  messages_eq : e.messages = d.messages
  arriving_eq : ∀ node, e.arriving node = d.arriving node
  executedAt_iff : ∀ node time, e.executedAt node = some time ↔
    d.executedAt node = some time ∨ (who node ∧ time = d.time)
  contains_holding : ∀ node result, (e.holding node).contains result = true ↔
    (d.holding node).contains result = true ∨ (node = result ∧ who node)

namespace Opens

variable {who : Nat → Prop}

theorem congr (h : Opens m d who e) {others : Nat → Prop} (hiff : ∀ node, who node ↔ others node) :
    Opens m d others e := by
  rwa [← funext fun node => propext (hiff node)]

/-- A node that was not one of them has not executed since. -/
theorem fresh (h : Opens m d who e) {node : Nat} (hfresh : d.executedAt node = none)
    (hnot : ¬ who node) : e.executedAt node = none := by
  cases hexec : e.executedAt node with
  | none => rfl
  | some time =>
      rcases (h.executedAt_iff node time).1 hexec with hold | ⟨hwho, _⟩
      · rw [hfresh] at hold
        cases hold
      · exact absurd hwho hnot

/-- A node that has not executed now had not before. -/
theorem fresh_before (h : Opens m d who e) {node : Nat} (hfresh : e.executedAt node = none) :
    d.executedAt node = none := by
  cases hexec : d.executedAt node with
  | none => rfl
  | some time =>
      have hstill := (h.executedAt_iff node time).2 (.inl hexec)
      rw [hfresh] at hstill
      cases hstill

theorem mono (h : Opens m d who e) {node result : Nat}
    (hheld : (d.holding node).contains result = true) :
    (e.holding node).contains result = true :=
  (h.contains_holding node result).2 (.inl hheld)

/-- To set down the row changes nothing about it. -/
theorem noted (h : Opens m d who e) : Opens m d who e.noted :=
  { consistent := h.consistent.noted
    time_eq := h.time_eq
    messages_eq := h.messages_eq
    arriving_eq := h.arriving_eq
    executedAt_iff := h.executedAt_iff
    contains_holding := h.contains_holding }

theorem quiet (h : Opens m d who e) (hquiet : d.Quiet) : e.Quiet :=
  fun node => (h.arriving_eq node).trans (hquiet node)

/-- Executions keep a draft sound if nothing has been sent at the present time. -/
theorem sound (h : Opens m d who e) (hquiet : d.Quiet) (hsound : d.Sound m) : e.Sound m :=
  { toConsistent := h.consistent
    full := by
      intro a ha hnow
      rw [h.messages_eq] at ha
      rw [h.time_eq] at hnow
      exact absurd hnow (Nat.ne_of_lt (hsound.sent_before hquiet a ha))
    distinct := by
      rw [h.messages_eq]
      exact hsound.distinct }

end Opens

theorem Opens.refl (h : d.Consistent m) : Opens m d (· ∈ ([] : List Nat)) d :=
  { consistent := h
    time_eq := rfl
    messages_eq := rfl
    arriving_eq := fun _ => rfl
    executedAt_iff := by simp
    contains_holding := by simp }

theorem Consistent.lt_held (h : d.Consistent m) {node : Nat} (hready : d.Ready m node) :
    node < d.held.size := by
  rw [h.size_held]
  exact Chain.lt_of_isInner hready.inner

theorem Ready.lt_capacity (hm : m.WellFormed) {node : Nat} (hready : d.Ready m node) :
    node < NodeSet.capacity :=
  Nat.lt_of_lt_of_le (Chain.lt_of_isInner hready.inner) hm.le_capacity

/-- A node that may execute still may when another one has. -/
theorem Ready.executing (h : d.Consistent m) (hm : m.WellFormed) {node other : Nat}
    (hnode : d.Ready m node) (hother : d.Ready m other) (hne : node ≠ other) :
    (d.executing node).Ready m other :=
  { inner := hother.inner
    fresh := by
      rw [executedAt_executing d other (h.lt_executed hnode), if_neg hne]
      exact hother.fresh
    at_once := hother.at_once
    holds := by
      intro waited hwaits
      rw [contains_holding_executing d other waited (h.lt_held hnode) (hnode.lt_capacity hm)]
      exact .inl (hother.holds waited hwaits) }

/-- One execution before the others. -/
theorem Opens.of_executing (h : d.Consistent m) (hm : m.WellFormed) {node : Nat} {ready : List Nat}
    (hnode : d.Ready m node) (hopens : Opens m (d.executing node) (· ∈ ready) e) :
    Opens m d (· ∈ node :: ready) e :=
  { consistent := hopens.consistent
    time_eq := hopens.time_eq
    messages_eq := hopens.messages_eq
    arriving_eq := hopens.arriving_eq
    executedAt_iff := by
      intro other time
      rw [hopens.executedAt_iff, executedAt_executing d other (h.lt_executed hnode)]
      show _ ∨ _ ∧ time = d.time ↔ _
      by_cases hat : node = other
      · subst hat
        simp only [if_pos, hnode.fresh, Option.some.injEq, List.mem_cons, true_or, true_and,
          false_or, reduceCtorEq]
        omega
      · simp only [if_neg hat, List.mem_cons, Ne.symm hat, false_or]
    contains_holding := by
      intro other result
      rw [hopens.contains_holding,
        contains_holding_executing d other result (h.lt_held hnode) (hnode.lt_capacity hm),
        or_assoc, List.mem_cons]
      apply or_congr_right
      constructor
      · rintro (⟨rfl, rfl⟩ | ⟨rfl, hmem⟩)
        · exact ⟨rfl, .inl rfl⟩
        · exact ⟨rfl, .inr hmem⟩
      · rintro ⟨rfl, rfl | hmem⟩
        · exact .inl ⟨rfl, rfl⟩
        · exact .inr ⟨rfl, hmem⟩ }

/-- Nodes that may execute do so one after another. -/
theorem Consistent.foldlM_execute (hm : m.WellFormed) (ready : List Nat) :
    ∀ d : Draft, d.Consistent m → ready.Nodup → (∀ node ∈ ready, d.Ready m node) →
      ∃ e, ready.foldlM execute d = .ok e ∧ Opens m d (· ∈ ready) e := by
  induction ready with
  | nil =>
      intro d h _ _
      exact ⟨d, rfl, .refl h⟩
  | cons node ready ih =>
      intro d h hnodup hready
      have hnode := hready node (by simp)
      obtain ⟨hnew, hrest⟩ := List.nodup_cons.1 hnodup
      have hother : ∀ other ∈ ready, (d.executing node).Ready m other := by
        intro other hmem
        exact hnode.executing h hm (hready other (by simp [hmem])) fun heq => hnew (heq ▸ hmem)
      obtain ⟨e, hfold, hopens⟩ := ih (d.executing node) (h.executing hm hnode) hrest hother
      refine ⟨e, ?_, hopens.of_executing h hm hnode⟩
      rw [List.foldlM_cons,
        execute_eq (h.lt_executed hnode) (h.lt_held hnode) (hnode.lt_capacity hm) hnode.fresh]
      exact hfold

/-- A step sets down its row after its executions, which write and send nothing
themselves. -/
theorem eq_noted_of_executeReady (h : m.executeReady d = .ok e) :
    ∃ opened : Draft, opened.possession = d.possession ∧ opened.messages = d.messages ∧
      opened.time = d.time ∧ e = opened.noted := by
  obtain ⟨inner, _, h⟩ := bind_eq_ok.1 h
  obtain ⟨ready, _, h⟩ := bind_eq_ok.1 h
  obtain ⟨opened, hfold, h⟩ := bind_eq_ok.1 h
  have htable : opened.possession = d.possession := by
    refine eq_of_foldlM Draft.possession ?_ hfold
    intro b node c hexec
    rw [eq_executing_of_execute hexec]
    rfl
  have hmessages : opened.messages = d.messages := by
    refine eq_of_foldlM Draft.messages ?_ hfold
    intro b node c hexec
    rw [eq_executing_of_execute hexec]
    rfl
  exact ⟨opened, htable, hmessages, time_of_executions hfold, eq_noted_of_noteRow h⟩

/-- All nodes that may execute do so. -/
theorem Consistent.executeReady_eq (h : d.Consistent m) (hm : m.WellFormed) :
    ∃ e, m.executeReady d = .ok e ∧ Opens m d (d.Ready m) e := by
  have hasked : ∀ node ∈ m.chain.inner, Decides (m.isReady d node) (d.Ready m node) :=
    fun node _ => decides_isReady hm h.fits node
  obtain ⟨ready, hfilter, hmem⟩ := Decides.filter hasked
  have hready : ∀ node, node ∈ ready ↔ d.Ready m node := fun node =>
    (hmem node).trans (and_iff_right_of_imp fun hr => Chain.mem_inner.2 hr.inner)
  have hnodup : ready.Nodup := (Chain.nodup_inner _).sublist (Checked.filter_sublist hfilter)
  obtain ⟨e, hfold, hopens⟩ := foldlM_execute hm ready d h hnodup fun node hnode =>
    (hready node).1 hnode
  refine ⟨e.noted, ?_, ?_⟩
  · unfold Model.executeReady
    rw [Chain.innerChecked_eq hm.two_le]
    show (do let ready ← Checked.filter (m.isReady d) m.chain.inner; _) = _
    rw [hfilter]
    show (do let e ← ready.foldlM execute d; _) = _
    rw [hfold]
    exact hopens.consistent.fits.noteRow_eq
  · exact (hopens.congr hready).noted

theorem Consistent.opens_of_executeReady (h : d.Consistent m) (hm : m.WellFormed)
    (hexec : m.executeReady d = .ok e) : Opens m d (d.Ready m) e := by
  obtain ⟨e', hexec', hopens⟩ := h.executeReady_eq hm
  rw [hexec] at hexec'
  cases hexec'
  exact hopens

/-- Then no further node may execute: an execution tells no other node
anything. -/
theorem Opens.not_ready (h : Opens m d (d.Ready m) e) (node : Nat) : ¬ e.Ready m node := by
  intro hready
  have hno : ¬ d.Ready m node := by
    intro hold
    have hexec := (h.executedAt_iff node d.time).2 (.inr ⟨hold, rfl⟩)
    rw [hready.fresh] at hexec
    cases hexec
  apply hno
  exact
    { inner := hready.inner
      fresh := h.fresh_before hready.fresh
      at_once := fun hzero => h.time_eq ▸ hready.at_once hzero
      holds := fun other hwaits => by
        rcases (h.contains_holding node other).1 (hready.holds other hwaits) with hheld | ⟨rfl, _⟩
        · exact hheld
        · exact absurd hwaits (Model.WellFormed.not_waits_self node) }

/-! ## Announcements -/

/-- Whether a node has sent to a node of a rank higher than 0. -/
def Announced (m : Model) (d : Draft) (node : Nat) : Prop :=
  ∃ a ∈ d.messages.toList, a.sender = node ∧ 0 < m.rank a.receiver

/-- Whether a message would be an announcement that is still to be made. -/
def Owes (m : Model) (d : Draft) (sender receiver : Nat) : Prop :=
  m.bank.contains .rankZeroAnnounce = true ∧ m.rank sender = 0 ∧ 0 < m.rank receiver ∧
    ¬ d.Announced m sender

/-- A draft within the horizon whose messages went to nodes of the chain.  Questions
about messages need no more to be answered. -/
structure Placed (m : Model) (d : Draft) : Prop extends d.Fits m.chain.nodes m.horizon where
  receiver_lt : ∀ a ∈ d.messages.toList, a.receiver < m.chain.nodes

theorem Consistent.placed (h : d.Consistent m) : d.Placed m where
  toFits := h.fits
  receiver_lt a ha := (Chain.sideBySide_iff.1 (h.sends a ha).1).2.1

theorem Placed.decides_hasAnnounced (h : d.Placed m) (hm : m.WellFormed) (node : Nat) :
    Decides (m.hasAnnounced d node) (d.Announced m node) := by
  have hcounts : ∀ a ∈ d.messages.toList,
      (a.sender == node && (m.ranks.values[a.receiver]?).all (0 < ·)) = true ↔
        a.sender = node ∧ 0 < m.rank a.receiver := by
    intro a ha
    have hlt : a.receiver < m.ranks.values.length := by
      rw [hm.length_values]
      exact h.receiver_lt a ha
    rw [Model.rank, List.getElem?_eq_getElem hlt, List.getD_eq_getElem _ _ hlt]
    simp
  unfold Model.hasAnnounced
  simp only [← Array.find?_toList]
  cases hfirst : d.messages.toList.find? _ with
  | none =>
      refine ⟨false, rfl, iff_of_false (by decide) ?_⟩
      rintro ⟨a, ha, hsender⟩
      exact List.find?_eq_none.1 hfirst a ha ((hcounts a ha).2 hsender)
  | some a =>
      have ha := List.mem_of_find?_eq_some hfirst
      have hfits := List.find?_some hfirst
      have hfound := (hcounts a ha).1 hfits
      refine ⟨true, ?_, iff_of_true rfl ⟨a, ha, hfound⟩⟩
      simp only
      rw [hm.rankOf_eq (h.receiver_lt a ha)]
      exact congrArg Except.ok (decide_eq_true hfound.2)

theorem Placed.decides_isOwedAnnouncement (h : d.Placed m) (hm : m.WellFormed)
    {sender receiver : Nat} (hbeside : m.chain.sideBySide sender receiver = true) :
    Decides (m.isOwedAnnouncement d sender receiver) (d.Owes m sender receiver) := by
  obtain ⟨hsender, hreceiver, _⟩ := Chain.sideBySide_iff.1 hbeside
  unfold Model.isOwedAnnouncement
  rw [hm.rankOf_eq hsender, hm.rankOf_eq hreceiver]
  obtain ⟨answer, hok, hiff⟩ := h.decides_hasAnnounced hm sender
  rw [hok]
  unfold Owes
  rw [← hiff]
  by_cases hrule : m.bank.contains .rankZeroAnnounce = true
  · by_cases hzero : m.rank sender = 0
    · by_cases hpos : 0 < m.rank receiver
      · refine ⟨!answer, ?_, by simp [hrule, hzero, hpos]⟩
        simp [hrule, hzero, Int.not_le.2 hpos]
      · refine ⟨false, ?_, by simp [hpos]⟩
        simp [hrule, hzero, Int.not_lt.1 hpos]
    · refine ⟨false, ?_, by simp [hzero]⟩
      simp [hrule, hzero]
  · refine ⟨false, ?_, by simp [hrule]⟩
    simp [hrule]

/-! ## Messages -/

/-- Whether a message is worth sending now: the nodes stand side by side, and
it tells the receiver something, or announces the sender. -/
structure Useful (m : Model) (d : Draft) (sender receiver : Nat) : Prop where
  beside : m.chain.sideBySide sender receiver = true
  some_held : ∃ result, (d.holding sender).contains result = true
  serves : (∃ result, (d.holding sender).contains result = true ∧
      ¬ (d.holdingNext receiver).contains result = true) ∨ d.Owes m sender receiver

/-- A node may send to a node next to it as soon as it holds something. -/
theorem Placed.decides_canSend (h : d.Placed m) (sender receiver : Nat) :
    Decides (m.canSend d sender receiver) (m.chain.sideBySide sender receiver = true ∧
      ∃ result, (d.holding sender).contains result = true) := by
  unfold Model.canSend
  by_cases hbeside : m.chain.sideBySide sender receiver = true
  · have hsender : sender < d.held.size := h.size_held.symm ▸ (Chain.sideBySide_iff.1 hbeside).1
    rw [hbeside, decide_eq_true h.time_le, holdingChecked_eq hsender]
    refine ⟨!(d.holding sender).isEmpty, rfl, ?_⟩
    rw [Bool.not_eq_true', NodeSet.isEmpty_eq_false_iff]
    exact (and_iff_right rfl).symm
  · refine ⟨false, ?_, iff_of_false (by decide) fun hcan => hbeside hcan.1⟩
    rw [Bool.eq_false_iff.2 hbeside]
    rfl

theorem Placed.canSend_iff (h : d.Placed m) {sender receiver : Nat} :
    m.canSend d sender receiver = .ok true ↔ m.chain.sideBySide sender receiver = true ∧
      ∃ result, (d.holding sender).contains result = true :=
  ⟨(h.decides_canSend sender receiver).of_eq_true, (h.decides_canSend sender receiver).eq_true⟩

theorem Consistent.canSend_iff (h : d.Consistent m) {sender receiver : Nat} :
    m.canSend d sender receiver = .ok true ↔ m.chain.sideBySide sender receiver = true ∧
      ∃ result, (d.holding sender).contains result = true :=
  h.placed.canSend_iff

theorem Placed.decides_isUseful (h : d.Placed m) (hm : m.WellFormed)
    (sender receiver : Nat) :
    Decides (m.isUseful d sender receiver) (d.Useful m sender receiver) := by
  unfold Model.isUseful
  by_cases hcan : m.canSend d sender receiver = .ok true
  · obtain ⟨hbeside, hsome⟩ := h.canSend_iff.1 hcan
    obtain ⟨hsender, hreceiver, _⟩ := Chain.sideBySide_iff.1 hbeside
    rw [hcan, holdingChecked_eq (h.size_held.symm ▸ hsender),
      holdingNextChecked_eq (h.size_held.symm ▸ hreceiver) (h.size_inbox.symm ▸ hreceiver)]
    have htells : (d.holding sender).isSubset (d.holdingNext receiver) = false ↔
        ∃ result, (d.holding sender).contains result = true ∧
          ¬ (d.holdingNext receiver).contains result = true := by
      rw [← Bool.not_eq_true, NodeSet.isSubset_iff]
      simp
    simp only [ok_bind]
    cases hsubset : (d.holding sender).isSubset (d.holdingNext receiver) with
    | false => exact ⟨true, rfl, iff_of_true rfl ⟨hbeside, hsome, .inl (htells.1 hsubset)⟩⟩
    | true =>
        apply (h.decides_isOwedAnnouncement hm hbeside).congr
        constructor
        · exact fun howes => ⟨hbeside, hsome, .inr howes⟩
        · intro huseful
          rcases huseful.serves with hnew | howes
          · rw [htells.2 hnew] at hsubset
            cases hsubset
          · exact howes
  · refine ⟨false, ?_, iff_of_false (by decide) fun huseful => ?_⟩
    · obtain ⟨answer, hasked, _⟩ := h.decides_canSend sender receiver
      cases answer with
      | true => exact absurd hasked hcan
      | false => rw [hasked]; rfl
    · exact hcan (h.canSend_iff.2 ⟨huseful.beside, huseful.some_held⟩)

theorem Consistent.decides_isUseful (h : d.Consistent m) (hm : m.WellFormed)
    (sender receiver : Nat) :
    Decides (m.isUseful d sender receiver) (d.Useful m sender receiver) :=
  h.placed.decides_isUseful hm sender receiver

/-- A message to a node next to the sender meets no fault. -/
theorem Consistent.send_eq (h : d.Consistent m) {sender receiver : Nat}
    (hbeside : m.chain.sideBySide sender receiver = true) :
    d.send sender receiver = .ok (d.sent sender receiver) := by
  obtain ⟨hsender, hreceiver, _⟩ := Chain.sideBySide_iff.1 hbeside
  exact send_eq_sent (by rw [h.size_held]; exact hsender) (by rw [h.size_inbox]; exact hreceiver)

/-- A message that is worth sending keeps a draft sound: if there were one
already, the receiver would have been told all of it. -/
theorem Sound.send_eq (h : d.Sound m) {sender receiver : Nat}
    (huseful : d.Useful m sender receiver) :
    d.send sender receiver = .ok (d.sent sender receiver) ∧ (d.sent sender receiver).Sound m := by
  refine ⟨h.toConsistent.send_eq huseful.beside,
    h.sent huseful.beside huseful.some_held fun a ha hslot => ?_⟩
  obtain ⟨hfrom, hto, hnow⟩ : a.sender = sender ∧ a.receiver = receiver ∧ a.time = d.time := by
    simpa [Message.slot] using hslot
  rcases huseful.serves with ⟨result, hheld, hnew⟩ | howes
  · apply hnew
    have hcarries : a.payload.contains result = true := by
      rw [h.full a ha hnow, hfrom]
      exact hheld
    rw [contains_holdingNext]
    exact .inr ((h.contains_arriving receiver result).2 ⟨a, ha, hto, hnow, hcarries⟩)
  · exact howes.2.2.2 ⟨a, ha, hfrom, hto ▸ howes.2.2.1⟩

end Draft

namespace Model

variable {m : Model}

/-- To put links in order rearranges them. -/
theorem inRankOrder_eq (hm : m.WellFormed) {links : List (Nat × Nat)}
    (h : ∀ link ∈ links, link.1 < m.chain.nodes) :
    ∃ ordered, m.inRankOrder links = .ok ordered ∧ ordered.Perm links := by
  unfold inRankOrder
  split
  · exact ⟨links, rfl, .refl _⟩
  · have hranked : ∀ rest : List (Nat × Nat), (∀ link ∈ rest, link.1 < m.chain.nodes) →
        (rest.mapM fun link => do return ((← m.ranks.rankOf link.1), link) :
          Checked (List (Int × Nat × Nat))) =
          .ok (rest.map fun link => (m.rank link.1, link)) := by
      intro rest hrest
      induction rest with
      | nil => rfl
      | cons link rest ih =>
          rw [List.mapM_cons, hm.rankOf_eq (hrest link (by simp)),
            ih fun other hother => hrest other (by simp [hother])]
          rfl
    refine ⟨_, by rw [hranked links h]; rfl, ?_⟩
    have hperm := (sorted_perm linkPrecedes (links.map fun link => (m.rank link.1, link))).map
      Prod.snd
    rwa [List.map_map,
      show (Prod.snd ∘ fun link : Nat × Nat => (m.rank link.1, link)) = id from rfl,
      List.map_id] at hperm

end Model

namespace Draft

variable {m : Model} {d e : Draft}

/-- The messages worth sending, each once; none at the horizon. -/
theorem Consistent.usefulLinks_eq (h : d.Consistent m) (hm : m.WellFormed) :
    ∃ links, m.usefulLinks d = .ok links ∧ links.Nodup ∧
      ∀ sender receiver, (sender, receiver) ∈ links ↔
        d.time < m.horizon ∧ d.Useful m sender receiver := by
  unfold Model.usefulLinks
  by_cases hlate : m.horizon ≤ d.time
  · refine ⟨[], if_pos hlate, .nil, fun sender receiver => ?_⟩
    simp [Nat.not_lt.2 hlate]
  · rw [if_neg hlate]
    have hasked : ∀ link ∈ m.chain.links,
        Decides (m.isUseful d link.1 link.2) (d.Useful m link.1 link.2) :=
      fun link _ => h.decides_isUseful hm link.1 link.2
    obtain ⟨kept, hkept, hmem⟩ := Decides.filter hasked
    have hsenders : ∀ link ∈ kept, link.1 < m.chain.nodes := fun link hlink =>
      (Chain.sideBySide_iff.1 ((hmem link).1 hlink).2.beside).1
    obtain ⟨ordered, hordered, hperm⟩ := Model.inRankOrder_eq hm hsenders
    have hnodup : kept.Nodup := (Chain.nodup_links _).sublist (Checked.filter_sublist hkept)
    refine ⟨ordered, ?_, hperm.nodup_iff.2 hnodup, fun sender receiver => ?_⟩
    · show (Checked.filter (fun link : Nat × Nat => m.isUseful d link.1 link.2)
        m.chain.links >>= m.inRankOrder) = _
      rw [hkept]
      exact hordered
    · rw [hperm.mem_iff, hmem]
      constructor
      · exact fun hboth => ⟨by omega, hboth.2⟩
      · exact fun hboth => ⟨Chain.mem_links.2 hboth.2.beside, hboth.2⟩

/-- A message tells the receiver all that the sender holds, but not before the
next time. -/
theorem Consistent.holdingNext_sent (h : d.Consistent m) {sender receiver : Nat}
    (hbeside : m.chain.sideBySide sender receiver = true) (node result : Nat) :
    ((d.sent sender receiver).holdingNext node).contains result = true ↔
      (d.holdingNext node).contains result = true ∨
        (receiver = node ∧ (d.holding sender).contains result = true) := by
  have hsize : receiver < d.inbox.size := by
    rw [h.size_inbox]
    exact (Chain.sideBySide_iff.1 hbeside).2.1
  rw [holdingNext, holdingNext, holding_sent, arriving_sent d node hsize,
    NodeSet.contains_union, NodeSet.contains_union]
  split
  · rename_i hto
    rw [NodeSet.contains_union]
    simp [hto, or_assoc]
  · rename_i hto
    simp [hto]

theorem Consistent.holding_delivered_eq (h : d.Consistent m) (node : Nat) :
    d.delivered.holding node = d.holdingNext node :=
  holding_delivered d node (h.size_held.trans h.size_inbox.symm)

theorem Consistent.passTime_eq (h : d.Consistent m) (hlt : d.time < m.horizon) :
    d.passTime = .ok d.delivered :=
  h.fits.passTime_eq h.horizon_eq hlt

/-! ## The beginning of a step -/

theorem Fits.decides_endsHoldAll (h : d.Fits m.chain.nodes m.horizon) (hm : m.WellFormed) :
    Decides (d.endsHoldAll m.chain) (d.EndsHold m) := by
  have hfirst : 0 < d.held.size := h.size_held.symm ▸ hm.first_lt
  have hlast : m.chain.farEnd < d.held.size := h.size_held.symm ▸ hm.farEnd_lt
  unfold endsHoldAll
  rw [Chain.resultSetChecked_eq hm.two_le hm.le_capacity, Chain.farEndChecked_eq hm.two_le,
    holdingChecked_eq hfirst]
  refine ⟨m.chain.resultSet.isSubset (d.holding 0) &&
    m.chain.resultSet.isSubset (d.holding m.chain.farEnd), ?_, ?_⟩
  · simp only [ok_bind, holdingChecked_eq hlast]
    cases m.chain.resultSet.isSubset (d.holding 0) <;> rfl
  · rw [Bool.and_eq_true, Chain.resultSet_isSubset_iff hm.le_capacity,
      Chain.resultSet_isSubset_iff hm.le_capacity]
    constructor
    · exact fun hboth result hinner => ⟨hboth.1 result hinner, hboth.2 result hinner⟩
    · exact fun hends => ⟨fun result hinner => (hends result hinner).1,
        fun result hinner => (hends result hinner).2⟩

/-- A draft whose endpoints hold everything has made its announcements. -/
theorem Consistent.allAnnounced_eq (h : d.Consistent m) (hm : m.WellFormed)
    (hends : d.EndsHold m) : m.allAnnounced d = .ok true := by
  unfold Model.allAnnounced
  split
  · have hheld : ∀ node, m.chain.isInner node = true →
        d.events.Holds 0 node d.time ∧ d.events.Holds m.chain.farEnd node d.time :=
      fun node hinner => ⟨(h.contains_holding _ _).1 (hends node hinner).1,
        (h.contains_holding _ _).1 (hends node hinner).2⟩
    have hrule := Model.satisfies_announce hm h.isLocal hheld d.possession
    have hasked : ∀ node ∈ List.range m.nodes, Decides (m.hasAnnouncedIfDue d node) True := by
      intro node hnode
      have hlt : node < m.chain.nodes := List.mem_range.1 hnode
      unfold Model.hasAnnouncedIfDue
      rw [hm.rankOf_eq hlt]
      by_cases hzero : m.rank node = 0
      · have hbeside : Decides ((m.chain.beside node).anyM fun other => do
            return 0 < (← m.ranks.rankOf other)) (∃ other ∈ m.chain.beside node,
              0 < m.rank other) := by
          apply Decides.anyM
          intro other hother
          have hin : other < m.chain.nodes := by
            rcases Chain.mem_beside.1 hother with hleft | hright <;> omega
          rw [hm.rankOf_eq hin]
          exact ⟨_, rfl, decide_eq_true_iff⟩
        by_cases hdue : ∃ other ∈ m.chain.beside node, 0 < m.rank other
        · obtain ⟨a, ha, hfrom, _, hpos⟩ := hrule node hlt hzero hdue
          have hannounced : d.Announced m node := ⟨a, ha, hfrom, hpos⟩
          refine ⟨true, ?_, by simp⟩
          rw [(h.placed.decides_hasAnnounced hm node).eq_true hannounced, hbeside.eq_true hdue]
          simp [hzero]
        · refine ⟨true, ?_, by simp⟩
          rw [hbeside.eq_false hdue]
          simp [hzero]
      · refine ⟨true, ?_, by simp⟩
        simp [hzero]
    exact (Decides.allM hasked).eq_true fun _ _ => trivial
  · rfl

theorem Consistent.decides_isDone (h : d.Consistent m) (hm : m.WellFormed) :
    Decides (m.isDone d) (d.EndsHold m) := by
  have hannounced : d.EndsHold m → Decides (m.allAnnounced d) True := fun hends =>
    ⟨true, h.allAnnounced_eq hm hends, by simp⟩
  unfold Model.isDone
  exact ((h.fits.decides_endsHoldAll hm).ite hannounced).congr (by simp)

theorem Consistent.settle_eq (h : d.Consistent m) (hquiet : d.Quiet) :
    d.settle = .ok d.settled := h.fits.settle_eq h.horizon_eq hquiet

/-- A step finishes the draft if the endpoints hold everything after the executions. -/
theorem Opens.finishes (hopens : Opens m d (d.Ready m) e) (hm : m.WellFormed)
    (hquiet : d.Quiet) (hexec : m.executeReady d = .ok e) (hends : e.EndsHold m) :
    m.beginStep d = .ok (.finished e.settled) := by
  have hdone := (hopens.consistent.decides_isDone hm).eq_true hends
  rw [Model.beginStep, hexec, ok_bind, hdone, ok_bind, if_pos rfl,
    hopens.consistent.settle_eq (hopens.quiet hquiet)]
  rfl

/-- Otherwise it goes on with the draft. -/
theorem Opens.continues (hopens : Opens m d (d.Ready m) e) (hm : m.WellFormed)
    (hexec : m.executeReady d = .ok e) (hends : ¬ e.EndsHold m) :
    m.beginStep d = .ok (.continuing e) := by
  have hdone := (hopens.consistent.decides_isDone hm).eq_false hends
  rw [Model.beginStep, hexec, ok_bind, hdone]
  rfl

/-- A step begins with the executions; then the draft is finished if both
endpoints hold everything. -/
theorem Consistent.beginStep_eq (h : d.Consistent m) (hm : m.WellFormed) (hquiet : d.Quiet) :
    ∃ e, Opens m d (d.Ready m) e ∧
      ((e.EndsHold m ∧ m.beginStep d = .ok (.finished e.settled)) ∨
        (¬ e.EndsHold m ∧ m.beginStep d = .ok (.continuing e))) := by
  obtain ⟨e, hexec, hopens⟩ := h.executeReady_eq hm
  refine ⟨e, hopens, ?_⟩
  by_cases hends : e.EndsHold m
  · exact .inl ⟨hends, hopens.finishes hm hquiet hexec hends⟩
  · exact .inr ⟨hends, hopens.continues hm hexec hends⟩

end Draft

end ChainPropagation
