import ChainPropagation.Proofs.Workers

/-!
# Banks that leave rules out

The search, its bounds and the test for an obstacle have the standard rules built in;
of the bank they only ask whether announcements count.  A schedule is judged by the
rules of the bank.  So with another bank than the standard one the answer to a model
may not fit the schedules that the model accepts.

It is four rules that matter.  A schedule that they accept need not be lawful: nodes
may be listed twice, or too late, or outside of the chain.  But its messages are those
of a lawful schedule, in which each node executes when it did so first
(`Schedule.oncePerNode`).  On the other hand, for each of the four there is a problem
without any lawful schedule, and a schedule for it to which no other rule objects
(`Overlooked`).

## Main results

* `exists_lawful_of_decisive` — what the four rules accept has the messages of a lawful
  schedule.
* `agrees_iff_decisive` — answers fit for all problems exactly if the bank has the four
  rules.
-/

namespace ChainPropagation

/-- The rules on which it depends how many messages a schedule needs. -/
def Rule.decisive : List Rule :=
  [.rankEnablement, .boundaryCompleteness, .sendFeasibility, .adjacency]

/-! ## Executing when it was first done -/

namespace Schedule

variable {s : Schedule} {c : Chain} {node result time now : Nat}

/-- The earliest time that any entry for a node gives. -/
def earliestOf (s : Schedule) (node : Nat) : Option Nat :=
  ((s.executions.filter (·.node == node)).map (·.time)).min?

theorem mem_times :
    time ∈ (s.executions.filter (·.node == node)).map (·.time) ↔ ⟨node, time⟩ ∈ s.executions := by
  simp only [List.mem_map, List.mem_filter, beq_iff_eq]
  constructor
  · rintro ⟨e, ⟨he, rfl⟩, rfl⟩
    exact he
  · intro he
    exact ⟨_, ⟨he, rfl⟩, rfl⟩

theorem mem_of_earliestOf (h : s.earliestOf node = some time) : ⟨node, time⟩ ∈ s.executions :=
  mem_times.1 (List.min?_mem h)

theorem exists_earliestOf (h : ⟨node, time⟩ ∈ s.executions) :
    ∃ first ≤ time, s.earliestOf node = some first := by
  cases hfirst : s.earliestOf node with
  | none =>
      rw [earliestOf, List.min?_eq_none_iff] at hfirst
      have hmem := mem_times.2 h
      rw [hfirst] at hmem
      cases hmem
  | some first =>
      have hleast := (List.min?_eq_some_iff.1 hfirst).2 time (mem_times.2 h)
      exact ⟨first, hleast, rfl⟩

/-- The messages of a schedule, and of the executions the earliest one for each
intermediate node. -/
def oncePerNode (c : Chain) (s : Schedule) : Schedule where
  executions := c.inner.filterMap fun node => (s.earliestOf node).map (⟨node, ·⟩)
  messages := s.messages

theorem mem_executions_oncePerNode : ⟨node, time⟩ ∈ (s.oncePerNode c).executions ↔
    c.isInner node = true ∧ s.earliestOf node = some time := by
  simp only [oncePerNode, List.mem_filterMap, Chain.mem_inner, Option.map_eq_some_iff,
    Execution.mk.injEq]
  constructor
  · rintro ⟨_, hinner, _, hfirst, rfl, rfl⟩
    exact ⟨hinner, hfirst⟩
  · rintro ⟨hinner, hfirst⟩
    exact ⟨node, hinner, time, hfirst, rfl, rfl⟩

theorem countP_oncePerNode_le_one (s : Schedule) (c : Chain) (node : Nat) :
    (s.oncePerNode c).executions.countP (·.node == node) ≤ 1 := by
  have hnodes : (s.oncePerNode c).executions.map (·.node) =
      c.inner.filter fun node => (s.earliestOf node).isSome := by
    rw [oncePerNode, List.map_filterMap, ← List.filterMap_eq_filter]
    apply List.filterMap_congr
    intro node _
    cases hfirst : s.earliestOf node <;> simp [Option.guard, hfirst]
  have hnodup : ((s.oncePerNode c).executions.map (·.node)).Nodup := by
    rw [hnodes]
    exact c.nodup_inner.filter _
  have hcount := List.nodup_iff_count_le_one.1 hnodup node
  rwa [List.count, List.countP_map] at hcount

/-- Results of intermediate nodes are held as before. -/
theorem Holds.oncePerNode (h : s.Holds node result now) (hinner : c.isInner result = true) :
    (s.oncePerNode c).Holds node result now := by
  induction h with
  | own executes done =>
      obtain ⟨first, hle, hfirst⟩ := exists_earliestOf executes
      exact .own (mem_executions_oncePerNode.2 ⟨hinner, hfirst⟩) (Nat.le_trans hle done)
  | told sent receives arrived carries _ ih =>
      exact .told (s := s.oncePerNode c) sent receives arrived carries (ih hinner)

end Schedule

/-! ## Banks that have the decisive rules -/

namespace Model

variable {m : Model} {s : Schedule}

/-- What the decisive rules accept has the messages of a lawful schedule. -/
theorem exists_lawful_of_decisive (hm : m.WellFormed)
    (h : ∀ rule ∈ Rule.decisive, m.Satisfies s (s.table m.nodes m.horizon) rule) :
    ∃ lawful, m.Lawful lawful ∧ lawful.messages = s.messages := by
  have henabled := h .rankEnablement (by decide)
  have hends := h .boundaryCompleteness (by decide)
  have hsend := h .sendFeasibility (by decide)
  have hbeside := h .adjacency (by decide)
  have htwo := hm.two_le
  have hholds : ∀ {time node : Nat}, time ≤ m.horizon → node < m.chain.nodes → ∀ result,
      ((s.table m.nodes m.horizon).cell time node).contains result = true →
        s.Holds node result time := fun htime hnode result =>
    (contains_iff_holds_of_satisfies hm hsend hbeside htime hnode result).1
  have hcomplete : ∀ node, m.chain.isInner node = true →
      s.Holds 0 node m.horizon ∧ s.Holds m.chain.farEnd node m.horizon := fun node hinner =>
    ⟨hholds (Nat.le_refl _) (by omega) node (hends node hinner).1,
      hholds (Nat.le_refl _) hm.farEnd_lt node (hends node hinner).2⟩
  -- the result of a node that executes has to get to the endpoints
  have hfirst : ∀ e ∈ (s.oncePerNode m.chain).executions, m.chain.isInner e.node = true ∧
      e ∈ s.executions ∧ e.time ≤ m.horizon := by
    intro e he
    obtain ⟨hinner, hearliest⟩ := Schedule.mem_executions_oncePerNode.1 he
    obtain ⟨time, hexec, hle⟩ := (hcomplete e.node hinner).1.executed
    obtain ⟨first, hbefore, hsame⟩ := Schedule.exists_earliestOf hexec
    cases hearliest.symm.trans hsame
    exact ⟨hinner, Schedule.mem_of_earliestOf hearliest, Nat.le_trans hbefore hle⟩
  have horderly : m.Orderly (s.oncePerNode m.chain) :=
    { once := s.countP_oncePerNode_le_one m.chain
      inner := fun e he => (hfirst e he).1
      in_time := fun e he => (hfirst e he).2.2
      at_once := by
        intro e he
        obtain ⟨hinner, hexec, hle⟩ := hfirst e he
        exact (henabled e hexec hinner hle).1
      enabled := by
        intro e he hpos other hother hlower
        obtain ⟨hinner, hexec, hle⟩ := hfirst e he
        have hthere := (henabled e hexec hinner hle).2 (by omega) other ⟨hother, hlower⟩
        exact (hholds hle (Chain.lt_of_isInner hinner) other hthere).oncePerNode hother
      sideBySide := hbeside
      sent_in_time := fun a ha => (hsend.2 a ha).2.2.1
      nonempty := fun a ha => (hsend.2 a ha).1
      distinct := hsend.1
      held := by
        intro a ha result hcarries
        obtain ⟨_, hresults, hle, hthere⟩ := hsend.2 a ha
        have hsender := (Chain.sideBySide_iff.1 (hbeside a ha)).1
        exact (hholds hle hsender result (hthere hsender result hcarries)).oncePerNode
          (hresults result hcarries) }
  refine ⟨s.oncePerNode m.chain, horderly.lawful fun node hinner => ?_, rfl⟩
  exact ⟨(hcomplete node hinner).1.oncePerNode hinner, (hcomplete node hinner).2.oncePerNode hinner⟩

/-- What an answer claims is so for the schedules that the model accepts: there are
none, or none with fewer messages than the one that is called optimal. -/
def Agrees (m : Model) : Outcome → Prop
  | .infeasible _ => ∀ s, m.isValid s ≠ .ok true
  | .feasible found =>
    found.provenOptimal = true → ∀ s, m.isValid s = .ok true → found.cost ≤ s.messages.length

theorem exists_agrees (hm : m.WellFormed) (hs : m.Storable)
    (hbank : ∀ rule ∈ Rule.decisive, rule ∈ m.bank.rules) {σ : Type} (g : Generator σ)
    (o : Options) (course : Course) :
    (∃ answer, m.solveTogether g o course = .ok answer ∧ m.Agrees answer) ∨
      ∃ why, course.start o.workers = .error why ∧
        m.solveTogether g o course = .error (o.refusal why) := by
  have hlawful : ∀ s, m.isValid s = .ok true →
      ∃ lawful, m.Lawful lawful ∧ lawful.messages = s.messages := by
    intro s hvalid
    have hnothing := (reports_verdict hm hs s).eq_nil_iff.1 (verdict_eq_nil_of_isValid hvalid)
    exact exists_lawful_of_decisive hm fun rule hrule => hnothing rule (hbank rule hrule)
  rcases solveTogether_eq hm hs g o course with
    ⟨hnone, reason, hsolve⟩ | hrefused | ⟨t, found, hsearched, hsolve, _, _, hbound, hproven⟩
  · refine .inl ⟨_, hsolve, fun s hvalid => hnone ?_⟩
    obtain ⟨lawful, hlaw, _⟩ := hlawful s hvalid
    exact ⟨lawful, hlaw⟩
  · exact .inr hrefused
  · refine .inl ⟨_, hsolve, fun hclaim s hvalid => ?_⟩
    obtain ⟨lawful, hlaw, hsame⟩ := hlawful s hvalid
    rw [hbound, ← hsame]
    exact hsearched.optimal (hproven.1 hclaim) lawful hlaw

end Model

/-! ## Banks without one of them -/

/-- Only one rule objects to a schedule, on a problem that has an obstacle. -/
structure Overlooked (rule : Rule) (p : Problem) (m : Model) (s : Schedule) : Prop where
  built : p.model .standard = .ok m
  obstacle : ∃ reason, m.obstacle = .ok (some reason)
  others : ∀ other ∈ Rule.all, other ≠ rule →
    m.breachesOf s (s.table m.nodes m.horizon) other = .ok []

theorem Rule.mem_all (rule : Rule) : rule ∈ Rule.all := by
  cases rule <;> decide

/-- What a rule asks for does not depend on the bank. -/
theorem Model.satisfies_withBank (m : Model) (bank : RuleBank) (s : Schedule) (p : Possession)
    (rule : Rule) : { m with bank := bank }.Satisfies s p rule ↔ m.Satisfies s p rule := by
  cases rule <;> exact Iff.rfl

/-- A bank without that rule accepts the schedule, while the search gives up. -/
theorem Overlooked.accepted {rule : Rule} {p : Problem} {m : Model} {s : Schedule}
    (h : Overlooked rule p m s) {bank : RuleBank} (hrule : rule ∉ bank.rules) {σ : Type}
    (g : Generator σ) (o : Options) (course : Course) :
    ∃ m' reason, p.model bank = .ok m' ∧
      m'.solveTogether g o course = .ok (.infeasible reason) ∧ m'.isValid s = .ok true := by
  have hbuilt := model_of_model h.built bank
  have hm := wellFormed_of_model hbuilt
  have hs := storable_of_model hbuilt
  obtain ⟨reason, hobstacle⟩ := h.obstacle
  -- the obstacle does not depend on the bank either
  have hblocked : ({ m with bank := bank } : Model).obstacle = .ok (some reason) := hobstacle
  have hnothing : ({ m with bank := bank } : Model).verdict s = .ok [] := by
    rw [(Model.reports_verdict hm hs s).eq_nil_iff]
    intro other hother
    have hne : other ≠ rule := fun heq => hrule (heq ▸ hother)
    have hreports := Model.reports_breachesOf (wellFormed_of_model h.built)
      (Model.covers_table s) s other
    rw [m.satisfies_withBank]
    exact hreports.eq_nil_iff.1 (h.others other other.mem_all hne)
  refine ⟨_, reason, hbuilt, by simp [Model.solveTogether, hblocked], ?_⟩
  rw [Model.isValid, hnothing]
  rfl

/-- Four nodes, too far apart for the time that there is. -/
def hurry : Problem := { nodes := 4, horizon := 1, ranks := [0, 0, 0, 0] }

/-- The model of `hurry` under the standard bank. -/
def hurryModel : Model where
  chain := { nodes := 4 }
  ranks := .assign { nodes := 4 } [0, 0, 0, 0]
  horizon := 1
  bank := .standard

/-- Nobody is told. -/
theorem hurry_untold : Overlooked .boundaryCompleteness hurry hurryModel
    { executions := [⟨1, 0⟩, ⟨2, 0⟩], messages := [] } where
  built := rfl
  obstacle := ⟨.horizonTooSmall, rfl⟩
  others := by decide +kernel

/-- Nodes tell what they cannot know. -/
theorem hurry_guessed : Overlooked .sendFeasibility hurry hurryModel
    { executions := [⟨1, 0⟩, ⟨2, 0⟩]
      messages := [⟨1, 0, 0, .ofList [1, 2]⟩, ⟨2, 3, 0, .ofList [1, 2]⟩] } where
  built := rfl
  obstacle := ⟨.horizonTooSmall, rfl⟩
  others := by decide +kernel

/-- Messages skip a node. -/
theorem hurry_skipped : Overlooked .adjacency hurry hurryModel
    { executions := [⟨1, 0⟩, ⟨2, 0⟩]
      messages := [⟨1, 0, 0, .ofList [1]⟩, ⟨1, 3, 0, .ofList [1]⟩,
        ⟨2, 0, 0, .ofList [2]⟩, ⟨2, 3, 0, .ofList [2]⟩] } where
  built := rfl
  obstacle := ⟨.horizonTooSmall, rfl⟩
  others := by decide +kernel

/-- Four nodes that are near enough, but one of which has to wait. -/
def queue : Problem := { nodes := 4, horizon := 2, ranks := [1, 0, 1, 1] }

/-- The model of `queue` under the standard bank. -/
def queueModel : Model where
  chain := { nodes := 4 }
  ranks := .assign { nodes := 4 } [1, 0, 1, 1]
  horizon := 2
  bank := .standard

/-- The node does not wait. -/
theorem queue_jumped : Overlooked .rankEnablement queue queueModel
    { executions := [⟨1, 0⟩, ⟨2, 0⟩]
      messages := [⟨1, 0, 0, .ofList [1]⟩, ⟨2, 3, 0, .ofList [2]⟩, ⟨1, 2, 0, .ofList [1]⟩,
        ⟨2, 1, 0, .ofList [2]⟩, ⟨1, 0, 1, .ofList [2]⟩, ⟨2, 3, 1, .ofList [1]⟩] } where
  built := rfl
  obstacle := ⟨.rankUnreachable, by decide +kernel⟩
  others := by decide +kernel

theorem exists_overlooked {rule : Rule} (h : rule ∈ Rule.decisive) :
    ∃ p m s, Overlooked rule p m s := by
  simp only [Rule.decisive, List.mem_cons, List.not_mem_nil, or_false] at h
  rcases h with rfl | rfl | rfl | rfl
  · exact ⟨_, _, _, queue_jumped⟩
  · exact ⟨_, _, _, hurry_untold⟩
  · exact ⟨_, _, _, hurry_guessed⟩
  · exact ⟨_, _, _, hurry_skipped⟩

/-- Without limits the search answers every problem in agreement with the rules of the
bank, unless its workers cannot be started, exactly if the decisive rules are in the
bank; what happens among the workers, what other rules there are and how often they are
listed does not matter. -/
theorem agrees_iff_decisive (bank : RuleBank) :
    (∀ (p : Problem) (m : Model), p.model bank = .ok m →
      ∀ (σ : Type) (g : Generator σ) (o : Options) (course : Course),
      o.maxNodes = none → o.maxMilliseconds = none →
        (∃ answer, m.solveTogether g o course = .ok answer ∧ m.Agrees answer) ∨
        ∃ why, course.start o.workers = .error why ∧
          m.solveTogether g o course = .error (o.refusal why)) ↔
      ∀ rule ∈ Rule.decisive, rule ∈ bank.rules := by
  constructor
  · intro hagrees rule hdecisive
    by_contra hrule
    obtain ⟨p, m, s, hoverlooked⟩ := exists_overlooked hdecisive
    obtain ⟨m', reason, hbuilt, hgivenUp, hvalid⟩ :=
      hoverlooked.accepted hrule Xoshiro.generator .standard (.alone fun _ => 0)
    have hstarted := hagrees p m' hbuilt _ Xoshiro.generator .standard (.alone fun _ => 0) rfl rfl
    obtain ⟨answer, hsolve, hnone⟩ := hstarted.resolve_right nofun
    rw [hgivenUp] at hsolve
    cases hsolve
    exact hnone s hvalid
  · intro hbank p m h σ g o course _ _
    rw [← bank_of_model h] at hbank
    exact Model.exists_agrees (wellFormed_of_model h) (storable_of_model h) hbank g o course

/-- The standard rules without the one that asks for results at the endpoints. -/
def RuleBank.openEnded : RuleBank where
  rules := [.taskExecution, .rankEnablement, .propagation, .selfResult, .initialization,
    .sendFeasibility, .adjacency]

/-- Three nodes and no time. -/
def instant : Problem := { nodes := 3, horizon := 0, ranks := [0, 0, 0] }

/-- The model of `instant` under that bank. -/
def instantModel : Model where
  chain := { nodes := 3 }
  ranks := .assign { nodes := 3 } [0, 0, 0]
  horizon := 0
  bank := .openEnded

/-- The search says that there is no schedule, since it asks for results at the
endpoints; the bank does not, and accepts a schedule. -/
theorem instant_disputed :
    instant.model .openEnded = .ok instantModel ∧
      instantModel.solveTogether Xoshiro.generator .standard (.alone fun _ => 0) =
        .ok (.infeasible .horizonTooSmall) ∧
      instantModel.isValid { executions := [⟨1, 0⟩], messages := [] } = .ok true ∧
      ¬ instantModel.Agrees (.infeasible .horizonTooSmall) := by
  have hvalid : instantModel.isValid { executions := [⟨1, 0⟩], messages := [] } = .ok true := rfl
  exact ⟨rfl, rfl, hvalid, fun hnone => hnone _ hvalid⟩

end ChainPropagation
