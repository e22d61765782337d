import Mathlib.Logic.Relation
import ChainPropagation.Proofs.Dominance

/-!
# Walks

A walk makes a schedule step by step, without looking ahead: at each time all
nodes execute that may, then the links that are useful as the step begins are
decided one after another, and time passes if something was sent.  A link may
be used only if it is still useful when its turn comes.

The search tree is made of walks (`Outlook.Leads.walks`), so that what is known
of its leaves says how far walks get: to every valid schedule there is one that
completes with no more messages (`exists_walk`, `walk_dominates`).

## Main results

* `Decided.grows`, `Advances.sound`, `Walks.sound` — a walk keeps a draft sound.
* `Outlook.Leads.walks` — a walk to every complete draft of the search tree.
* `walk_dominates` — a walk to a complete draft for every valid schedule.
-/

namespace ChainPropagation

namespace Draft

variable {m : Model} {d e f g : Draft} {links : List (Nat × Nat)}

/-! ## Steps of a walk -/

/-- The decisions of one step: each link in turn is skipped, or sent along if it
is useful by then. -/
inductive Decided (m : Model) : List (Nat × Nat) → Draft → Draft → Prop where
  | nil {d : Draft} : Decided m [] d d
  | skip {link : Nat × Nat} {links : List (Nat × Nat)} {d f : Draft}
      (rest : Decided m links d f) : Decided m (link :: links) d f
  | send {link : Nat × Nat} {links : List (Nat × Nat)} {d e f : Draft}
      (useful : m.isUseful d link.1 link.2 = .ok true) (sends : d.send link.1 link.2 = .ok e)
      (rest : Decided m links e f) : Decided m (link :: links) d f

/-- One step, in which at least one message is sent. -/
inductive Advances (m : Model) (d g : Draft) : Prop where
  | step {e f : Draft} {links : List (Nat × Nat)} (opens : m.executeReady d = .ok e)
      (offers : m.usefulLinks e = .ok links) (decided : Decided m links e f)
      (sends : e.messages.size < f.messages.size) (passes : f.passTime = .ok g) : Advances m d g

/-- Any number of steps. -/
def Walks (m : Model) : Draft → Draft → Prop := Relation.ReflTransGen (Advances m)

/-! ### What a step preserves -/

/-- Before anything is sent a draft is silent. -/
theorem Consistent.isSilent_eq (h : d.Consistent m) (hquiet : d.Quiet) : d.isSilent = true := by
  unfold isSilent
  rw [← Array.getLast?_toList]
  cases hlast : d.messages.toList.getLast? with
  | none => rfl
  | some a =>
      have hearlier := h.sent_before hquiet a (List.mem_of_getLast? hlast)
      have hother : ¬ a.time = d.time := by omega
      simp [hother]

/-- Decisions keep a draft sound. -/
theorem Decided.grows (hdecided : Decided m links d f) (hm : m.WellFormed) (h : d.Consistent m) :
    Grows m d f := by
  induction hdecided with
  | nil => exact .refl h
  | skip _ ih => exact ih h
  | send useful sends _ ih =>
      have huseful := (h.decides_isUseful hm _ _).of_eq_true useful
      have hgrows := h.grows_sent huseful
      rw [← eq_sent_of_send sends] at hgrows
      exact hgrows.trans (ih hgrows.consistent)

/-- Either nothing is sent or there are more messages. -/
theorem Decided.eq_or_size_lt (hdecided : Decided m links d f) :
    f = d ∨ d.messages.size < f.messages.size := by
  induction hdecided with
  | nil => exact .inl rfl
  | skip _ ih => exact ih
  | @send link _ d e f _ sends _ ih =>
      have hone : e.messages.size = d.messages.size + 1 := by
        rw [eq_sent_of_send sends]
        exact Array.size_push _
      rcases ih with rfl | hmore
      · exact .inr (by omega)
      · exact .inr (by omega)

/-- All that a step can do to a consistent draft. -/
theorem Advances.step_eq (hstep : Advances m d g) (hm : m.WellFormed) (h : d.Consistent m) :
    ∃ e f links, Opens m d (d.Ready m) e ∧ Decided m links e f ∧ Grows m e f ∧
      e.messages.size < f.messages.size ∧ f.time < m.horizon ∧ g = f.delivered := by
  cases hstep with
  | @step e f links opens offers decided sends passes =>
      have hopens := h.opens_of_executeReady hm opens
      have hgrows := decided.grows hm hopens.consistent
      obtain ⟨hlt, hpass⟩ := eq_delivered_of_passTime passes
      rw [hgrows.consistent.horizon_eq] at hlt
      exact ⟨e, f, links, hopens, decided, hgrows, sends, hlt, hpass⟩

/-- A step keeps a draft sound and takes one time. -/
theorem Advances.sound (hstep : Advances m d g) (hm : m.WellFormed) (h : d.Sound m)
    (hquiet : d.Quiet) : g.Sound m ∧ g.Quiet ∧ g.time = d.time + 1 := by
  obtain ⟨e, f, links, hopens, _, hgrows, _, hlt, rfl⟩ := hstep.step_eq hm h.toConsistent
  have hf := hgrows.sound (hopens.sound hquiet h)
  exact ⟨hf.delivered hlt, quiet_delivered f, hopens.time_delivered hgrows.toSpreads⟩

theorem Walks.sound (hwalk : Walks m d g) (hm : m.WellFormed) (h : d.Sound m)
    (hquiet : d.Quiet) : g.Sound m ∧ g.Quiet := by
  induction hwalk with
  | refl => exact ⟨h, hquiet⟩
  | tail _ step ih =>
      obtain ⟨hsound, hquiet, _⟩ := step.sound hm ih.1 ih.2
      exact ⟨hsound, hquiet⟩

/-! ## Walks to the leaves of the search tree -/

/-- A walk gets to where the executions of a step complete a draft, and it settles. -/
def WalksTo (m : Model) (d leaf : Draft) : Prop :=
  ∃ last e, Walks m d last ∧ m.executeReady last = .ok e ∧ m.isDone e = .ok true ∧
    e.settle = .ok leaf

end Draft

namespace Model

variable {m : Model} {d leaf : Draft} {nodes : List SearchNode}

/-- What a step begins with, if the draft is not finished then. -/
theorem beginStep_eq_continuing {e : Draft} (h : m.beginStep d = .ok (.continuing e)) :
    m.executeReady d = .ok e := by
  obtain ⟨f, hexec, h⟩ := bind_eq_ok.1 h
  obtain ⟨done, _, h⟩ := bind_eq_ok.1 h
  cases done with
  | true =>
      obtain ⟨_, _, h⟩ := bind_eq_ok.1 h
      cases h
  | false =>
      cases h
      exact hexec

/-- And if it is. -/
theorem beginStep_eq_finished (h : m.beginStep d = .ok (.finished leaf)) :
    ∃ e, m.executeReady d = .ok e ∧ m.isDone e = .ok true ∧ e.settle = .ok leaf := by
  obtain ⟨e, hexec, h⟩ := bind_eq_ok.1 h
  obtain ⟨done, hdone, h⟩ := bind_eq_ok.1 h
  cases done with
  | true =>
      obtain ⟨settled, hsettle, h⟩ := bind_eq_ok.1 h
      cases h
      exact ⟨e, hexec, hdone, hsettle⟩
  | false => cases h

/-- Where the beginning of a step leads. -/
theorem enter_eq_ok {outlook : Outlook} (h : m.enter d = .ok outlook) :
    outlook = .unreachable ∨
      (∃ leaf, m.beginStep d = .ok (.finished leaf) ∧ outlook = .complete leaf) ∨
      ∃ e, m.beginStep d = .ok (.continuing e) ∧
        ((m.horizon ≤ e.time ∧ outlook = .closed) ∨
          ∃ links, e.time < m.horizon ∧ m.usefulLinks e = .ok links ∧
            outlook = .children [{ draft := e, undecided := links }]) := by
  obtain ⟨reachable, _, h⟩ := bind_eq_ok.1 h
  cases reachable with
  | false =>
      cases h
      exact .inl rfl
  | true =>
      obtain ⟨opening, hbegin, h⟩ := bind_eq_ok.1 h
      cases opening with
      | finished leaf =>
          cases h
          exact .inr (.inl ⟨leaf, hbegin, rfl⟩)
      | continuing e =>
          refine .inr (.inr ⟨e, hbegin, ?_⟩)
          by_cases hlate : m.horizon ≤ e.time
          · simp only [hlate, if_true] at h
            cases h
            exact .inl ⟨hlate, rfl⟩
          · simp only [hlate, if_false] at h
            obtain ⟨links, hlinks, h⟩ := bind_eq_ok.1 h
            cases h
            exact .inr ⟨links, Nat.lt_of_not_le hlate, hlinks, rfl⟩

theorem enter_eq_complete (h : m.enter d = .ok (.complete leaf)) : d.WalksTo m leaf := by
  rcases enter_eq_ok h with hnone | ⟨leaf', hbegin, heq⟩ | ⟨e, _, ⟨_, hnone⟩ | ⟨_, _, _, hnone⟩⟩
  · cases hnone
  · cases heq
    obtain ⟨e, hexec, hdone, hsettle⟩ := beginStep_eq_finished hbegin
    exact ⟨d, e, .refl, hexec, hdone, hsettle⟩
  · cases hnone
  · cases hnone

theorem enter_eq_children (h : m.enter d = .ok (.children nodes)) :
    ∃ e links, m.executeReady d = .ok e ∧ m.usefulLinks e = .ok links ∧
      e.time < m.horizon ∧ nodes = [{ draft := e, undecided := links }] := by
  rcases enter_eq_ok h with
    hnone | ⟨_, _, hnone⟩ | ⟨e, hbegin, ⟨_, hnone⟩ | ⟨links, hlt, hlinks, heq⟩⟩
  · cases hnone
  · cases hnone
  · cases hnone
  · cases heq
    exact ⟨e, links, beginStep_eq_continuing hbegin, hlinks, hlt, rfl⟩

end Model

variable {m : Model} {leaf : Draft}

/-- From a node of the tree the links that are left are decided in some way, and
a walk goes on from there. -/
def SearchNode.WalksTo (m : Model) (n : SearchNode) (leaf : Draft) : Prop :=
  ∃ f, Draft.Decided m n.undecided n.draft f ∧ f.isSilent = false ∧ f.delivered.WalksTo m leaf

/-- A walk that begins with the step of a child of the tree. -/
theorem Draft.Sound.walksTo_of_child {d : Draft} {nodes : List SearchNode} {c : SearchNode}
    (h : d.Sound m) (hm : m.WellFormed) (hquiet : d.Quiet)
    (henter : m.enter d = .ok (.children nodes)) (hmem : c ∈ nodes)
    (hwalks : c.Sound m → c.WalksTo m leaf) : d.WalksTo m leaf := by
  obtain ⟨e, links, hexec, hlinks, hlt, rfl⟩ := Model.enter_eq_children henter
  cases List.mem_singleton.1 hmem
  have hopens := h.opens_of_executeReady hm hexec
  have hchild : SearchNode.Sound m { draft := e, undecided := links } :=
    { draft := hopens.sound hquiet h
      early := hlt }
  obtain ⟨f, hdecided, hspeaks, last, done, hwalk, hlast⟩ := hwalks hchild
  have hgrows := hdecided.grows hm hopens.consistent
  have hearly : f.time < m.horizon := by
    rw [hgrows.time_eq]
    exact hlt
  have hmore : e.messages.size < f.messages.size := by
    rcases hdecided.eq_or_size_lt with rfl | hmore
    · rw [hopens.consistent.isSilent_eq (hopens.quiet hquiet)] at hspeaks
      cases hspeaks
    · exact hmore
  have hstep : Advances m d f.delivered :=
    .step hexec hlinks hdecided hmore (hgrows.consistent.passTime_eq hearly)
  exact ⟨last, done, .head hstep hwalk, hlast⟩

namespace SearchNode

variable {n c : SearchNode} {outlook : Outlook} {nodes : List SearchNode}

/-- If no link is left to decide, the walk goes on with the next step. -/
theorem Sound.walksTo_of_nil (h : n.Sound m) (hnil : n.undecided = [])
    (hbranch : m.branch n = .ok outlook) (hleads : outlook.Leads m leaf)
    (hwalks : ∀ d : Draft, d.Sound m → d.Quiet → m.enter d = .ok outlook → d.WalksTo m leaf) :
    n.WalksTo m leaf := by
  obtain ⟨d, undecided⟩ := n
  cases hnil
  cases hsilent : d.isSilent with
  | true =>
      rw [Model.branch_of_silent hsilent] at hbranch
      cases hbranch
      cases hleads
  | false =>
      rw [Model.branch_of_not_silent h.draft.toConsistent h.early hsilent] at hbranch
      have hnext := hwalks d.delivered (h.draft.delivered h.early) (Draft.quiet_delivered d) hbranch
      exact ⟨d, .nil, hsilent, hnext⟩

/-- Otherwise the children decide the first link. -/
theorem Sound.walksTo_of_child {link : Nat × Nat} {rest : List (Nat × Nat)} (h : n.Sound m)
    (hm : m.WellFormed) (hcons : n.undecided = link :: rest)
    (hbranch : m.branch n = .ok (.children nodes)) (hmem : c ∈ nodes)
    (hwalks : c.Sound m → c.WalksTo m leaf) : n.WalksTo m leaf := by
  obtain ⟨d, undecided⟩ := n
  cases hcons
  have hskipped : SearchNode.Sound m { draft := d, undecided := rest } :=
    { draft := h.draft
      early := h.early }
  by_cases huseful : d.Useful m link.1 link.2
  · rw [Model.branch_of_useful h.draft.toConsistent hm huseful] at hbranch
    cases hbranch
    obtain ⟨hsend, hsound⟩ := h.draft.send_eq huseful
    rcases List.mem_cons.1 hmem with rfl | hmem
    · obtain ⟨f, hdecided, hspeaks, hnext⟩ := hwalks hskipped
      exact ⟨f, .skip hdecided, hspeaks, hnext⟩
    · cases List.mem_singleton.1 hmem
      obtain ⟨f, hdecided, hspeaks, hnext⟩ := hwalks { draft := hsound, early := h.early }
      have hasked := (h.draft.decides_isUseful hm link.1 link.2).eq_true huseful
      exact ⟨f, .send hasked hsend hdecided, hspeaks, hnext⟩
  · rw [Model.branch_of_not_useful h.draft.toConsistent hm huseful] at hbranch
    cases hbranch
    cases List.mem_singleton.1 hmem
    obtain ⟨f, hdecided, hspeaks, hnext⟩ := hwalks hskipped
    exact ⟨f, .skip hdecided, hspeaks, hnext⟩

/-- Nothing is complete in the middle of a step. -/
theorem Sound.branch_ne_complete {link : Nat × Nat} {rest : List (Nat × Nat)} {d : Draft}
    (h : n.Sound m) (hm : m.WellFormed) (hcons : n.undecided = link :: rest) :
    m.branch n ≠ .ok (.complete d) := by
  obtain ⟨g, undecided⟩ := n
  cases hcons
  intro hbranch
  by_cases huseful : g.Useful m link.1 link.2
  · rw [Model.branch_of_useful h.draft.toConsistent hm huseful] at hbranch
    cases hbranch
  · rw [Model.branch_of_not_useful h.draft.toConsistent hm huseful] at hbranch
    cases hbranch

end SearchNode

/-- A walk gets to every complete draft of the search tree, from the beginning of
a step as well as from within it. -/
theorem Outlook.Leads.walks (hm : m.WellFormed) {outlook : Outlook}
    (hleads : outlook.Leads m leaf) :
    (∀ d : Draft, d.Sound m → d.Quiet → m.enter d = .ok outlook → d.WalksTo m leaf) ∧
      ∀ n : SearchNode, n.Sound m → m.branch n = .ok outlook → n.WalksTo m leaf := by
  induction hleads with
  | @complete leaf =>
      have henters : ∀ d : Draft, d.Sound m → d.Quiet → m.enter d = .ok (.complete leaf) →
          d.WalksTo m leaf := fun d _ _ henter => Model.enter_eq_complete henter
      refine ⟨henters, ?_⟩
      intro n h hbranch
      cases hleft : n.undecided with
      | nil => exact h.walksTo_of_nil hleft hbranch .complete henters
      | cons link rest => exact absurd hbranch (h.branch_ne_complete hm hleft)
  | @child nodes c outlook leaf mem below rest ih =>
      have hbelow : c.Sound m → c.WalksTo m leaf := fun hsound => ih.2 c hsound below
      have henters : ∀ d : Draft, d.Sound m → d.Quiet → m.enter d = .ok (.children nodes) →
          d.WalksTo m leaf :=
        fun d h hquiet henter => h.walksTo_of_child hm hquiet henter mem hbelow
      refine ⟨henters, ?_⟩
      intro n h hbranch
      cases hleft : n.undecided with
      | nil => exact h.walksTo_of_nil hleft hbranch (.child mem below rest) henters
      | cons link rest => exact h.walksTo_of_child hm hleft hbranch mem hbelow

/-! ## Walks for valid schedules -/

namespace Draft

variable {d e : Draft}

/-- Executions do not complete a draft: endpoints never execute. -/
theorem Opens.endsHold_iff (hopens : Opens m d (d.Ready m) e) : e.EndsHold m ↔ d.EndsHold m := by
  have hend : ∀ {node result : Nat}, ¬ m.chain.isInner node = true →
      ((e.holding node).contains result = true ↔ (d.holding node).contains result = true) := by
    intro node result houter
    rw [hopens.contains_holding, or_iff_left]
    rintro ⟨_, hready⟩
    exact houter hready.inner
  have hfirst : ¬ m.chain.isInner 0 = true := by
    rw [Chain.isInner_iff]
    omega
  have hlast : ¬ m.chain.isInner m.chain.farEnd = true := by
    rw [Chain.isInner_iff, Chain.farEnd]
    omega
  unfold EndsHold
  simp only [hend hfirst, hend hlast]

end Draft

/-- For every lawful schedule there is a walk that completes with no more
messages. -/
theorem Model.exists_walk (hm : m.WellFormed) (hs : m.Storable) {s : Schedule} (hlaw : m.Lawful s) :
    ∃ last done, Draft.Walks m (.start m) last ∧ m.executeReady last = .ok done ∧
      done.EndsHold m ∧ last.messages.size ≤ s.cost := by
  have hsound := Draft.sound_start hs.horizon_lt
  have hquiet := Draft.quiet_start m
  obtain ⟨outlook, leaf, henter, hleads, hcost⟩ :=
    enter_dominates hm hlaw hsound.toConsistent hquiet rfl rfl
  obtain ⟨last, done, hwalk, hexec, hdone, hsettle⟩ :=
    (hleads.walks hm).1 (.start m) hsound hquiet henter
  obtain ⟨hlast, hstill⟩ := hwalk.sound hm hsound hquiet
  have hopens := hlast.opens_of_executeReady hm hexec
  have hends : done.EndsHold m := (hopens.consistent.decides_isDone hm).of_eq_true hdone
  rw [hopens.consistent.settle_eq (hopens.quiet hstill)] at hsettle
  cases hsettle
  refine ⟨last, done, hwalk, hexec, hends, ?_⟩
  rw [← hopens.messages_eq]
  exact hcost

/-- For every valid schedule of a built model there is a walk from the blank draft
that is done in time with no more messages; the executions of its last time make
no difference to that. -/
theorem walk_dominates {p : Problem} {bank : RuleBank} {m : Model}
    (hbank : ∀ rule ∈ RuleBank.standard.rules, rule ∈ bank.rules) (h : p.model bank = .ok m)
    {s : Schedule} (hvalid : m.verdict s = .ok []) :
    ∃ blank last done, m.blankDraft = .ok blank ∧ Draft.Walks m blank last ∧
      m.isDone last = .ok true ∧ m.executeReady last = .ok done ∧ m.isDone done = .ok true ∧
      last.time ≤ m.horizon ∧ last.messages.size ≤ s.cost := by
  have hm := wellFormed_of_model h
  have hs := storable_of_model h
  rw [← bank_of_model h] at hbank
  have hlaw := Model.lawful_of_verdict_eq_nil hm hs hbank hvalid
  obtain ⟨last, done, hwalk, hexec, hends, hcost⟩ := Model.exists_walk hm hs hlaw
  obtain ⟨hlast, hquiet⟩ := hwalk.sound hm (Draft.sound_start hs.horizon_lt) (Draft.quiet_start m)
  have hopens := hlast.opens_of_executeReady hm hexec
  exact ⟨.start m, last, done, Draft.blankDraft_eq hs, hwalk,
    (hlast.decides_isDone hm).eq_true (hopens.endsHold_iff.1 hends), hexec,
    (hopens.consistent.decides_isDone hm).eq_true hends, hlast.time_le, hcost⟩

/-- The six messages of the meeting make all announcements, so a walk with no
more of them does. -/
theorem meetingSchedule_dominated :
    (∀ rule ∈ RuleBank.standard.rules,
      rule ∈ (RuleBank.standard.add .rankZeroAnnounce).rules) ∧
      meeting.model (RuleBank.standard.add .rankZeroAnnounce) = .ok announcedMeeting ∧
      announcedMeeting.verdict meetingSchedule = .ok [] ∧
      ∃ blank last done, announcedMeeting.blankDraft = .ok blank ∧
        Draft.Walks announcedMeeting blank last ∧ announcedMeeting.isDone last = .ok true ∧
        announcedMeeting.executeReady last = .ok done ∧
        announcedMeeting.isDone done = .ok true ∧
        last.time ≤ announcedMeeting.horizon ∧ last.messages.size ≤ meetingSchedule.cost :=
  have hbank : ∀ rule ∈ RuleBank.standard.rules,
      rule ∈ (RuleBank.standard.add .rankZeroAnnounce).rules := by decide
  have hbuilt : meeting.model (RuleBank.standard.add .rankZeroAnnounce) = .ok announcedMeeting :=
    rfl
  have hvalid : announcedMeeting.verdict meetingSchedule = .ok [] := rfl
  ⟨hbank, hbuilt, hvalid, walk_dominates hbank hbuilt hvalid⟩

end ChainPropagation
