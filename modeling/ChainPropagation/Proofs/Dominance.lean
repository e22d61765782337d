import Mathlib.Data.List.Perm.Subperm
import ChainPropagation.Proofs.Tree

/-!
# The tree loses no minimum

A lawful schedule may execute late, send only a part of what it holds, repeat
itself and wait.  The search tree knows none of this: its drafts execute as soon
as they can, send all they hold, skip what is useless and close a silent step.
Nevertheless some complete draft of the tree has no more messages than the
schedule (`enter_dominates`).

The draft that follows a schedule sends along those links that the schedule uses
at a time, as far as they are useful (`Draft.Sweeps`).  It then holds at least what the schedule
holds, with at most as many messages (`Draft.KeepsUp`).  When no link of a time
is useful the draft stays where it is, in the middle of its step, while the
schedule goes on (`KeepsUp.wait`); so no silent step is ever needed.
-/

namespace ChainPropagation

/-! ## Messages by time -/

namespace Schedule

/-- The number of messages sent before a time. -/
def costBefore (s : Schedule) (time : Nat) : Nat := s.messages.countP (·.time < time)

theorem costBefore_le (s : Schedule) (time : Nat) : s.costBefore time ≤ s.cost :=
  List.countP_le_length

@[simp] theorem costBefore_zero (s : Schedule) : s.costBefore 0 = 0 := by
  rw [costBefore, List.countP_eq_zero]
  simp

theorem costBefore_succ (s : Schedule) (time : Nat) :
    s.costBefore (time + 1) = s.costBefore time + (s.sentAt time).length := by
  rw [costBefore, costBefore, sentAt, ← List.countP_eq_length_filter]
  induction s.messages with
  | nil => rfl
  | cons a messages ih =>
      simp only [List.countP_cons, ih]
      by_cases hnow : a.time = time
      · simp [hnow]
        omega
      · have hsame : (a.time < time + 1) ↔ a.time < time := by omega
        simp [hnow, hsame]
        omega

/-- The links that are used at a time. -/
def linksAt (s : Schedule) (time : Nat) : List (Nat × Nat) :=
  (s.sentAt time).map fun a => (a.sender, a.receiver)

theorem mem_linksAt {s : Schedule} {a : Message} (ha : a ∈ s.messages) :
    (a.sender, a.receiver) ∈ s.linksAt a.time :=
  List.mem_map.2 ⟨a, List.mem_filter.2 ⟨ha, beq_self_eq_true a.time⟩, rfl⟩

/-- Of links without repetition no more are used than messages are sent. -/
theorem countP_linksAt_le (s : Schedule) (time : Nat) {links : List (Nat × Nat)}
    (hnodup : links.Nodup) :
    links.countP (fun link => decide (link ∈ s.linksAt time)) ≤ (s.sentAt time).length := by
  rw [List.countP_eq_length_filter,
    ← List.length_map (f := fun a : Message => (a.sender, a.receiver))]
  refine (List.subperm_of_subset (hnodup.filter _) fun link hlink => ?_).length_le
  exact of_decide_eq_true (List.mem_filter.1 hlink).2

end Schedule

variable {m : Model} {s : Schedule}

/-! ## The decisions of one step -/

namespace SearchNode.Leads

variable {g d : Draft} {link : Nat × Nat} {links : List (Nat × Nat)}

theorem of_skip (hm : m.WellFormed) (h : g.Consistent m)
    (hleads : Leads m { draft := g, undecided := links } d) :
    Leads m { draft := g, undecided := link :: links } d := by
  by_cases huseful : g.Useful m link.1 link.2
  · exact hleads.of_child (Model.branch_of_useful h hm huseful) (by simp)
  · exact hleads.of_child (Model.branch_of_not_useful h hm huseful) (by simp)

theorem of_send (hm : m.WellFormed) (h : g.Consistent m) (huseful : g.Useful m link.1 link.2)
    (hleads : Leads m { draft := g.sent link.1 link.2, undecided := links } d) :
    Leads m { draft := g, undecided := link :: links } d :=
  hleads.of_child (Model.branch_of_useful h hm huseful) (by simp)

end SearchNode.Leads

namespace Draft

variable {d e f : Draft}

theorem isSilent_sent (d : Draft) (sender receiver : Nat) :
    (d.sent sender receiver).isSilent = false := by
  simp [isSilent, sent]

/-- The way through the decisions of a step that sends along the used links as
far as they are useful. -/
structure Sweeps (m : Model) (used links : List (Nat × Nat)) (e f : Draft) : Prop
    extends Grows m e f where
  changes : f = e ∨ f.isSilent = false
  size_le : f.messages.size ≤ e.messages.size + links.countP (fun link => decide (link ∈ used))
  tells : ∀ link ∈ links, link ∈ used → m.chain.sideBySide link.1 link.2 = true → ∀ result,
    (e.holding link.1).contains result = true → (f.holdingNext link.2).contains result = true
  leads : ∀ d, SearchNode.Leads m { draft := f, undecided := [] } d →
    SearchNode.Leads m { draft := e, undecided := links } d

namespace Sweeps

variable {used links : List (Nat × Nat)} {link : Nat × Nat}

theorem nil (h : e.Consistent m) : Sweeps m used [] e e :=
  { toGrows := .refl h
    changes := .inl rfl
    size_le := Nat.le_refl _
    tells := nofun
    leads := fun _ hd => hd }

/-- A used link that is useful: the draft sends along it. -/
theorem of_send (hm : m.WellFormed) (h : e.Consistent m) (hused : link ∈ used)
    (huseful : e.Useful m link.1 link.2)
    (hsweeps : Sweeps m used links (e.sent link.1 link.2) f) : Sweeps m used (link :: links) e f :=
  { toGrows := (h.grows_sent huseful).trans hsweeps.toGrows
    changes := by
      rcases hsweeps.changes with rfl | hsilent
      · exact .inr (isSilent_sent e link.1 link.2)
      · exact .inr hsilent
    size_le := by
      have hone : (e.sent link.1 link.2).messages.size = e.messages.size + 1 := Array.size_push _
      have hrest := hsweeps.size_le
      rw [List.countP_cons, if_pos (decide_eq_true hused)]
      omega
    tells := by
      intro other hother hin hbeside result hheld
      rcases List.mem_cons.1 hother with rfl | hother
      · have htold := (h.holdingNext_sent hbeside other.2 result).2 (.inr ⟨rfl, hheld⟩)
        exact hsweeps.next_mono _ _ htold
      · exact hsweeps.tells other hother hin hbeside result hheld
    leads := fun d hd => .of_send hm h huseful (hsweeps.leads d hd) }

/-- Any other link: if it is used it has nothing to tell. -/
theorem of_skip (hm : m.WellFormed) (h : e.Consistent m)
    (hskip : ¬ (link ∈ used ∧ e.Useful m link.1 link.2)) (hsweeps : Sweeps m used links e f) :
    Sweeps m used (link :: links) e f :=
  { toGrows := hsweeps.toGrows
    changes := hsweeps.changes
    size_le := by
      have hrest := hsweeps.size_le
      rw [List.countP_cons]
      omega
    tells := by
      intro other hother hin hbeside result hheld
      rcases List.mem_cons.1 hother with rfl | hother
      · have hnot : ¬ e.Useful m other.1 other.2 := fun huseful => hskip ⟨hin, huseful⟩
        exact hsweeps.next_mono _ _ (told_of_not_useful hbeside hnot hheld)
      · exact hsweeps.tells other hother hin hbeside result hheld
    leads := fun d hd => .of_skip hm h (hsweeps.leads d hd) }

end Sweeps

theorem Consistent.exists_sweep (hm : m.WellFormed) (used links : List (Nat × Nat)) :
    ∀ e : Draft, e.Consistent m → ∃ f, Sweeps m used links e f := by
  induction links with
  | nil =>
      intro e h
      exact ⟨e, .nil h⟩
  | cons link links ih =>
      intro e h
      by_cases hsend : link ∈ used ∧ e.Useful m link.1 link.2
      · obtain ⟨f, hsweeps⟩ := ih (e.sent link.1 link.2) (h.grows_sent hsend.2).consistent
        exact ⟨f, hsweeps.of_send hm h hsend.1 hsend.2⟩
      · obtain ⟨f, hsweeps⟩ := ih e h
        exact ⟨f, hsweeps.of_skip hm h hsend⟩

/-! ## Keeping up with a schedule -/

/-- A draft, its executions done, that holds at least what a schedule holds at a
time and has no more messages than the schedule has before that time. -/
structure KeepsUp (m : Model) (s : Schedule) (now : Nat) (e : Draft) : Prop where
  consistent : e.Consistent m
  quiet : e.Quiet
  time_le : e.time ≤ now
  done : ∀ node, ¬ e.Ready m node
  covers : ∀ node result, s.Holds node result now → (e.holding node).contains result = true
  size_le : e.messages.size ≤ s.costBefore now

/-- A node that executes in a lawful schedule had been told all that it waits
for, and by nobody but others.  So it is ready in a draft that is ahead. -/
theorem Ahead.ready (hm : m.WellFormed) (hlaw : m.Lawful s) {node now : Nat}
    (hahead : d.Ahead s now) (htime : d.time ≤ now) (hexec : ⟨node, now⟩ ∈ s.executions)
    (hfresh : d.executedAt node = none) : d.Ready m node :=
  { inner := hlaw.inner _ hexec
    fresh := hfresh
    at_once := by
      intro hzero
      have hstart : now = 0 := hlaw.at_once _ hexec hzero
      omega
    holds := by
      intro other hwaits
      rcases hahead node other (hlaw.holds_awaited hm hexec hwaits) with hheld | ⟨rfl, _⟩
      · exact hheld
      · exact absurd hwaits (Model.WellFormed.not_waits_self node) }

/-- Once its executions are done, a draft that is ahead of a schedule keeps up
with it. -/
theorem Ahead.keepsUp (hm : m.WellFormed) (hlaw : m.Lawful s) {now : Nat}
    (hahead : d.Ahead s now) (hquiet : d.Quiet) (htime : d.time ≤ now)
    (hsize : d.messages.size ≤ s.costBefore now) (hopens : Opens m d (d.Ready m) e) :
    e.KeepsUp m s now :=
  { consistent := hopens.consistent
    quiet := hopens.quiet hquiet
    time_le := hopens.time_eq ▸ htime
    done := hopens.not_ready
    covers := by
      intro node result hholds
      rcases hahead node result hholds with hheld | ⟨rfl, hexec⟩
      · exact hopens.mono hheld
      · cases hdone : d.executedAt node with
        | some time =>
            exact hopens.consistent.contains_own ((hopens.executedAt_iff node time).2 (.inl hdone))
        | none =>
            have hready : d.Ready m node := hahead.ready hm hlaw htime hexec hdone
            exact (hopens.contains_holding node node).2 (.inr ⟨rfl, hready⟩)
    size_le := by rw [hopens.messages_eq]; exact hsize }

namespace KeepsUp

variable {now : Nat}

/-- At the horizon a draft that keeps up is complete. -/
theorem endsHold (h : e.KeepsUp m s now) (hlaw : m.Lawful s) (hend : now = m.horizon) :
    e.EndsHold m := by
  intro result hinner
  obtain ⟨hfirst, hlast⟩ := hlaw.complete result hinner
  exact ⟨h.covers _ _ (hend ▸ hfirst), h.covers _ _ (hend ▸ hlast)⟩

/-- What a schedule holds at the next time, a draft holds that keeps up and is
told what the schedule's messages carry, but for nodes that execute then. -/
theorem covers_succ (h : e.KeepsUp m s now) {next : Nat → NodeSet}
    (hkeeps : ∀ node result, (e.holding node).contains result = true →
      (next node).contains result = true)
    (htold : ∀ a ∈ s.messages, a.time = now → ∀ result,
      (e.holding a.sender).contains result = true → (next a.receiver).contains result = true)
    {node result : Nat} (hholds : s.Holds node result (now + 1)) :
    (next node).contains result = true ∨ (node = result ∧ ⟨node, now + 1⟩ ∈ s.executions) := by
  rcases Schedule.holds_succ_iff.1 hholds with hold | ⟨a, ha, rfl, hnow, _, hheld⟩ | hexec
  · exact .inl (hkeeps _ _ (h.covers _ _ hold))
  · exact .inl (htold a ha hnow result (h.covers _ _ hheld))
  · exact .inr hexec

/-- If the messages of a time tell nothing new, the draft keeps up without any
step of its own. -/
theorem wait (h : e.KeepsUp m s now) (hm : m.WellFormed) (hlaw : m.Lawful s)
    (htold : ∀ a ∈ s.messages, a.time = now → ∀ result,
      (e.holding a.sender).contains result = true →
      (e.holding a.receiver).contains result = true) : e.KeepsUp m s (now + 1) := by
  have htime : e.time ≤ now + 1 := Nat.le_succ_of_le h.time_le
  have hahead : e.Ahead s (now + 1) :=
    fun _ _ hholds => h.covers_succ (fun _ _ hheld => hheld) htold hholds
  exact
    { consistent := h.consistent
      quiet := h.quiet
      time_le := htime
      done := h.done
      covers := by
        intro node result hholds
        rcases hahead node result hholds with hheld | ⟨rfl, hexec⟩
        · exact hheld
        · cases hdone : e.executedAt node with
          | some time => exact h.consistent.contains_own hdone
          | none => exact absurd (hahead.ready hm hlaw htime hexec hdone) (h.done node)
      size_le := by
        have hmore := s.costBefore_succ now
        have hsize := h.size_le
        omega }

/-- Otherwise it is ahead again at its next time. -/
theorem ahead_delivered (h : e.KeepsUp m s now) (hgrows : Grows m e f)
    (htold : ∀ a ∈ s.messages, a.time = now → ∀ result,
      (e.holding a.sender).contains result = true →
      (f.holdingNext a.receiver).contains result = true) :
    f.delivered.Ahead s (now + 1) := by
  have hkept : ∀ node result, (e.holding node).contains result = true →
      (f.holdingNext node).contains result = true := by
    intro node result hheld
    exact held_next (by rw [hgrows.holding_eq]; exact hheld)
  intro node result hholds
  rw [hgrows.consistent.holding_delivered_eq]
  exact h.covers_succ hkept htold hholds

end KeepsUp

/-! ## Following a schedule -/

/-- A node whose draft keeps up leads to a complete draft that has no more
messages than the schedule. -/
def Dominates (m : Model) (s : Schedule) (now : Nat) : Prop :=
  ∀ e links, e.KeepsUp m s now → e.time < m.horizon → ¬ e.EndsHold m →
    m.usefulLinks e = .ok links →
    ∃ d, SearchNode.Leads m { draft := e, undecided := links } d ∧ d.messages.size ≤ s.cost

/-- The same from the beginning of a step. -/
theorem Dominates.enter (hdom : Dominates m s now) (hm : m.WellFormed) (hlaw : m.Lawful s)
    (h : d.Consistent m) (hquiet : d.Quiet) (hahead : d.Ahead s now) (htime : d.time ≤ now)
    (hle : now ≤ m.horizon) (hsize : d.messages.size ≤ s.costBefore now) :
    ∃ outlook leaf, m.enter d = .ok outlook ∧ outlook.Leads m leaf ∧
      leaf.messages.size ≤ s.cost := by
  rcases h.enter_eq hm hquiet with ⟨hcannot, _⟩ | ⟨e, hopens, hcase⟩
  · exact absurd (hahead.canFinish h hm hlaw htime hle) hcannot
  · have hkeeps := hahead.keepsUp hm hlaw hquiet htime hsize hopens
    rcases hcase with ⟨_, hok⟩ | ⟨hends, hlt, links, hlinks, hok⟩
    · exact ⟨_, e.settled, hok, .complete, Nat.le_trans hkeeps.size_le (s.costBefore_le now)⟩
    · obtain ⟨leaf, ⟨outlook, hbelow, hleads⟩, hcost⟩ :=
        hdom e links hkeeps (hopens.time_eq ▸ hlt) hends hlinks
      exact ⟨_, leaf, hok, .child (by simp) hbelow hleads, hcost⟩

/-- A sweep along the links of a time tells all that the schedule's messages of
that time do: a link that is not among the useful ones has nothing to tell. -/
theorem Sweeps.tells_sentAt {now : Nat} {links : List (Nat × Nat)} (hlaw : m.Lawful s)
    (hsweeps : Sweeps m (s.linksAt now) links e f)
    (hlinks : ∀ a b, e.Useful m a b → (a, b) ∈ links) :
    ∀ a ∈ s.messages, a.time = now → ∀ result, (e.holding a.sender).contains result = true →
      (f.holdingNext a.receiver).contains result = true := by
  intro a ha hnow result hheld
  have hbeside := hlaw.sideBySide ha
  by_cases hlink : (a.sender, a.receiver) ∈ links
  · exact hsweeps.tells _ hlink (hnow ▸ Schedule.mem_linksAt ha) hbeside result hheld
  · have hnot : ¬ e.Useful m a.sender a.receiver := fun huseful => hlink (hlinks _ _ huseful)
    exact hsweeps.next_mono _ _ (told_of_not_useful hbeside hnot hheld)

theorem dominates (hm : m.WellFormed) (hlaw : m.Lawful s) (left : Nat) :
    ∀ now, now + left = m.horizon → Dominates m s now := by
  induction left with
  | zero =>
      intro now hend e links hkeeps _ hends _
      exact absurd (hkeeps.endsHold hlaw hend) hends
  | succ left ih =>
      intro now hend e links hkeeps hlt hends hlinks
      have hnext := ih (now + 1) (by omega)
      obtain ⟨links', hlinks', hnodup, hmem⟩ := hkeeps.consistent.usefulLinks_eq hm
      rw [hlinks] at hlinks'
      cases hlinks'
      obtain ⟨f, hsweeps⟩ := hkeeps.consistent.exists_sweep hm (s.linksAt now) links e
      have htold := hsweeps.tells_sentAt hlaw fun a b huseful => (hmem a b).2 ⟨hlt, huseful⟩
      rcases hsweeps.changes with rfl | hsilent
      · -- nothing was sent: the schedule goes on alone
        have hwait := hkeeps.wait hm hlaw fun a ha hnow result hheld =>
          hkeeps.quiet.contains_holdingNext.1 (htold a ha hnow result hheld)
        exact hnext f links hwait hlt hends hlinks
      · have htime := hsweeps.time_eq
        have hearly : f.time < m.horizon := by omega
        have hahead := hkeeps.ahead_delivered hsweeps.toGrows htold
        have hnow : f.delivered.time ≤ now + 1 := by
          have hbefore := hkeeps.time_le
          show f.time + 1 ≤ now + 1
          omega
        have hsize : f.delivered.messages.size ≤ s.costBefore (now + 1) := by
          have hused := s.countP_linksAt_le now hnodup
          have hmore := s.costBefore_succ now
          have hbefore := hkeeps.size_le
          have hswept := hsweeps.size_le
          show f.messages.size ≤ _
          omega
        obtain ⟨outlook, leaf, hok, hbelow, hcost⟩ := hnext.enter hm hlaw
          (hsweeps.consistent.delivered hearly) (quiet_delivered f) hahead hnow (by omega) hsize
        rw [← Model.branch_of_not_silent hsweeps.consistent hearly hsilent] at hok
        exact ⟨leaf, hsweeps.leads leaf ⟨outlook, hok, hbelow⟩, hcost⟩

end Draft

/-- For every lawful schedule the search tree has a complete draft that has no
more messages. -/
theorem Model.enter_dominates {blank : Draft} (hm : m.WellFormed) (hlaw : m.Lawful s)
    (h : blank.Consistent m) (hquiet : blank.Quiet) (htime : blank.time = 0)
    (hnone : blank.messages = #[]) :
    ∃ outlook leaf, m.enter blank = .ok outlook ∧ outlook.Leads m leaf ∧
      leaf.messages.size ≤ s.cost := by
  have hdom := Draft.dominates hm hlaw m.horizon 0 (by omega)
  exact hdom.enter hm hlaw h hquiet (Draft.ahead_zero blank s) (by omega) (Nat.zero_le _)
    (by simp [hnone])

end ChainPropagation
