import ChainPropagation.Proofs.Depth

/-!
# The node limit

A search that may explore only so many nodes is the search without limits, cut off
after that many visits.  To say so, a search is taken apart into its visits: a `Stage`
is what it has come to between two of them, and `Model.searchFirst` is the stage after
the first visits of the search without limits.

As long as a limit is not met it makes no difference, so that a search with limits goes
through the same stages (`Model.resume_eq_visitFirst`).  What remains is the end: either
nothing is pending any more, or the next node is counted, found to be one too many, and
left alone (`Stage.cut`).

## Main result

* `node_limit_exact` — what a search with a node limit answers, beside the search
  without limits.
-/

namespace ChainPropagation

variable {σ : Type} {g : Generator σ} {m : Model} {n : SearchNode} {nodes : List SearchNode}
  {t t' last : Tally}
  {limits : Limits} {o : Options} {clock : Nat → Nat} {limit size : Nat}

/-! ## Limits that are not met -/

namespace Limits

/-- Only so many nodes may be explored. -/
def ofNodes (limit : Nat) : Limits := ⟨some limit, fun _ => false⟩

/-- The limits are not met by the first so many nodes. -/
def Allow (limits : Limits) (most : Nat) : Prop :=
  ∀ t : Tally, t.explored ≤ most → t.pastLimit limits = t.stopped

theorem free_allow (most : Nat) : free.Allow most := by
  intro t _
  rw [Tally.pastLimit, met_free, Bool.or_false]

theorem ofNodes_allow (limit : Nat) : (ofNodes limit).Allow limit := by
  intro t hle
  simp [Tally.pastLimit, met, ofNodes, Nat.not_lt.2 hle]

theorem pastLimit_ofNodes (hlt : limit < t.explored) : t.pastLimit (ofNodes limit) = true := by
  simp [Tally.pastLimit, met, ofNodes, hlt]

end Limits

theorem Options.limits_eq_ofNodes (hnodes : o.maxNodes = some limit)
    (htime : o.maxMilliseconds = none) : o.limits clock = .ofNodes limit := by
  simp [Options.limits, Limits.ofNodes, hnodes, htime]

namespace Model

/-- Where the limits are not met, they make no difference. -/
theorem visit_eq_free (hallow : limits.Allow (t.explored + 1)) :
    m.visit limits n t = m.visit .free n t := by
  have hpast := hallow { t with explored := t.explored + 1 } (Nat.le_refl _)
  have hfree := Limits.free_allow (t.explored + 1) { t with explored := t.explored + 1 }
    (Nat.le_refl _)
  unfold visit
  simp only [hpast, hfree]

theorem stopped_of_visit (h : m.visit .free n t = .ok (nodes, t')) (hgoing : t.stopped = false) :
    t'.stopped = false := by
  have hpast : Tally.pastLimit { t with explored := t.explored + 1 } .free = false :=
    (Limits.free_allow (t.explored + 1) _ (Nat.le_refl _)).trans hgoing
  unfold visit at h
  simp only [hpast, Bool.false_eq_true, if_false] at h
  obtain ⟨needed, _, h⟩ := solving_bind_eq_ok.1 h
  split at h
  · cases h
    exact hgoing
  · obtain ⟨outlook, _, hfollow⟩ := solving_bind_eq_ok.1 h
    exact (stopped_of_follow hfollow).trans hgoing

end Model

/-! ## A search visit by visit -/

/-- What a search has come to between two visits. -/
structure Stage where
  /-- whether nodes are searched to their end -/
  deep : Bool
  pending : List SearchNode
  tally : Tally

namespace Stage

/-- What is shown when a node limit is met at a stage: the next node, if there is one, is
counted, but not explored. -/
def cut (s : Stage) : Tally :=
  if s.pending.isEmpty then s.tally
  else { s.tally with explored := s.tally.explored + 1, stopped := true }

/-- The stage of a search that is not stopped after so many visits: as many nodes have
been explored, unless nothing was pending any more before. -/
structure After (s : Stage) (visits : Nat) : Prop where
  going : s.tally.stopped = false
  explored_le : s.tally.explored ≤ visits
  explored_eq : s.pending ≠ [] → s.tally.explored = visits

variable {s : Stage}

theorem cut_of_done (hdone : s.pending = []) : s.cut = s.tally := by
  rw [cut, hdone]
  rfl

theorem cut_of_pending (hpending : s.pending ≠ []) :
    s.cut = { s.tally with explored := s.tally.explored + 1, stopped := true } := by
  rw [cut, if_neg (by simpa using hpending)]

/-- A limit that is met shows in the count, which is then one too high. -/
theorem After.cut_explored (h : s.After limit) :
    s.cut.explored ≤ limit + 1 ∧ (s.cut.stopped = false ↔ s.cut.explored ≤ limit) := by
  by_cases hpending : s.pending = []
  · rw [cut_of_done hpending]
    exact ⟨Nat.le_succ_of_le h.explored_le, iff_of_true h.going h.explored_le⟩
  · rw [cut_of_pending hpending, h.explored_eq hpending]
    exact ⟨Nat.le_refl _, iff_of_false (by simp) (Nat.not_succ_le_self limit)⟩

end Stage

namespace Model

/-- The search before its first visit. -/
def opened (m : Model) (g : Generator σ) (o : Options) : Solving Stage := do
  let t ← m.headStart g o
  let (roots, t) ← m.follow t (← m.enter (← m.blankDraft))
  return ⟨false, roots, t⟩

/-- The rest of a search. -/
def resume (m : Model) (limits : Limits) (size : Nat) (s : Stage) : Solving Tally :=
  m.visitAll limits size s.deep s.pending s.tally

/-- The stage after one visit more, if something is pending. -/
def visitNext (m : Model) (size : Nat) (s : Stage) : Solving Stage :=
  match s.pending with
  | [] => .ok s
  | n :: rest => do
      let (nodes, t) ← m.visit .free n s.tally
      let deep := s.deep || size ≤ (n :: rest).length
      return ⟨deep, enqueue deep nodes rest, t⟩

/-- The stage after so many visits more. -/
def visitFirst (m : Model) (size : Nat) : (budget : Nat) → Stage → Solving Stage
  | 0, s => .ok s
  | budget + 1, s => do m.visitFirst size budget (← m.visitNext size s)

/-- The stage of the search without limits after its first so many visits. -/
def searchFirst (m : Model) (g : Generator σ) (o : Options) (budget : Nat) : Solving Stage := do
  m.visitFirst (max o.frontier 1) budget (← m.opened g o)

theorem search_eq_resume :
    m.search g o clock = m.opened g o >>= m.resume (o.limits clock) (max o.frontier 1) := by
  unfold search opened resume
  simp only [bind_assoc, pure_bind]

/-- A search begins alike with every node limit. -/
theorem opened_withNodes (nodes : Option Nat) :
    m.opened g { o with maxNodes := nodes } = m.opened g o := by
  have hdives : ∀ left index t,
      m.diveOften g { o with maxNodes := nodes } left index t = m.diveOften g o left index t := by
    intro left
    induction left with
    | zero => exact fun _ _ => rfl
    | succ left ih =>
        intro index t
        exact congrArg (m.diveOnce g o t index >>= ·) (funext (ih (index + 1)))
  have hstart : m.headStart g { o with maxNodes := nodes } = m.headStart g o := by
    unfold headStart
    simp only [hdives]
  unfold opened
  rw [hstart]

variable {s s' : Stage}

theorem resume_of_done (hdone : s.pending = []) : m.resume limits size s = .ok s.tally := by
  rw [resume, hdone, visitAll_nil]

theorem visitNext_of_done (hdone : s.pending = []) : m.visitNext size s = .ok s := by
  rw [visitNext, hdone]

theorem visitFirst_of_done (hdone : s.pending = []) (budget : Nat) :
    m.visitFirst size budget s = .ok s := by
  induction budget with
  | zero => rfl
  | succ budget ih =>
      rw [visitFirst, visitNext_of_done hdone]
      exact ih

/-- One visit counts one node, and does not end the search. -/
theorem visitNext_eq_ok (hnext : m.visitNext size s = .ok s') (hgoing : s.tally.stopped = false)
    (hpending : s.pending ≠ []) :
    s'.tally.explored = s.tally.explored + 1 ∧ s'.tally.stopped = false := by
  unfold visitNext at hnext
  split at hnext
  · contradiction
  · obtain ⟨⟨nodes, t⟩, hvisit, hnext⟩ := solving_bind_eq_ok.1 hnext
    cases hnext
    exact ⟨explored_of_visit hvisit, stopped_of_visit hvisit hgoing⟩

/-- The rest of a search begins with the next visit. -/
theorem resume_eq_visitNext (hgoing : s.tally.stopped = false)
    (hallow : limits.Allow (s.tally.explored + 1)) :
    m.resume limits size s = m.visitNext size s >>= m.resume limits size := by
  unfold resume visitNext
  cases hpending : s.pending with
  | nil =>
      show m.visitAll limits size s.deep [] s.tally =
        m.visitAll limits size s.deep s.pending s.tally
      rw [hpending]
  | cons n rest =>
      rw [visitAll_cons hgoing, visit_eq_free hallow]
      simp only [bind_assoc, pure_bind]

theorem after_of_visitFirst (budget : Nat) : ∀ s, s.tally.stopped = false →
    m.visitFirst size budget s = .ok s' → s'.After (s.tally.explored + budget) := by
  induction budget with
  | zero =>
      intro s hgoing hfirst
      cases hfirst
      exact ⟨hgoing, Nat.le_refl _, fun _ => rfl⟩
  | succ budget ih =>
      intro s hgoing hfirst
      by_cases hdone : s.pending = []
      · rw [visitFirst_of_done hdone] at hfirst
        cases hfirst
        exact ⟨hgoing, Nat.le_add_right _ _, fun hpending => absurd hdone hpending⟩
      · obtain ⟨next, hnext, hrest⟩ := solving_bind_eq_ok.1 hfirst
        obtain ⟨hexplored, hstill⟩ := visitNext_eq_ok hnext hgoing hdone
        have hafter := ih next hstill hrest
        rwa [hexplored, Nat.add_right_comm, Nat.add_assoc] at hafter

/-- So long as the limits are not met, a search with limits makes the visits that a
search without limits makes. -/
theorem resume_eq_visitFirst (budget : Nat) : ∀ s, s.tally.stopped = false →
    limits.Allow (s.tally.explored + budget) →
    m.resume limits size s = m.visitFirst size budget s >>= m.resume limits size := by
  induction budget with
  | zero => exact fun _ _ _ => rfl
  | succ budget ih =>
      intro s hgoing hallow
      by_cases hdone : s.pending = []
      · -- more visits leave the stage as it is
        rw [visitFirst_of_done hdone]
        rfl
      · have hone : limits.Allow (s.tally.explored + 1) :=
          fun t hle => hallow t (by omega)
        rw [resume_eq_visitNext hgoing hone, visitFirst, bind_assoc]
        cases hnext : m.visitNext size s with
        | error e => rfl
        | ok next =>
            obtain ⟨hexplored, hstill⟩ := visitNext_eq_ok hnext hgoing hdone
            exact ih next hstill fun t hle => hallow t (by omega)

/-- After as many visits as the node limit says the search ends. -/
theorem resume_ofNodes (h : s.After limit) : m.resume (.ofNodes limit) size s = .ok s.cut := by
  by_cases hdone : s.pending = []
  · rw [resume_of_done hdone, Stage.cut_of_done hdone]
  · obtain ⟨n, rest, hpending⟩ := List.exists_cons_of_ne_nil hdone
    have hpast : Tally.pastLimit { s.tally with explored := s.tally.explored + 1 }
        (.ofNodes limit) = true :=
      Limits.pastLimit_ofNodes (h.explored_eq hdone ▸ Nat.lt_succ_self _)
    -- the next visit stops the search, and what is pending after it is left
    rw [resume, hpending, visitAll_cons h.going, visit_of_pastLimit hpast,
      Stage.cut_of_pending hdone]
    exact visitAll_of_stopped rfl _ _

/-- The count of nodes does not go down. -/
theorem explored_le_of_resume (hrest : m.resume limits size s = .ok last) :
    s.tally.explored ≤ last.explored := by
  obtain ⟨_, hle⟩ := visitAll_induct (fun _ t => s.tally.explored ≤ t.explored)
    (fun _ _ _ _ _ hle hvisit _ => by
      rw [explored_of_visit hvisit]
      omega) hrest (Nat.le_refl _)
  exact hle

/-- Without limits it goes up where something is pending. -/
theorem explored_lt_of_resume (hrest : m.resume .free size s = .ok last)
    (hgoing : s.tally.stopped = false) (hpending : s.pending ≠ []) :
    s.tally.explored < last.explored := by
  rw [resume_eq_visitNext hgoing (Limits.free_allow _)] at hrest
  obtain ⟨next, hnext, hrest⟩ := solving_bind_eq_ok.1 hrest
  have hle := explored_le_of_resume hrest
  rw [(visitNext_eq_ok hnext hgoing hpending).1] at hle
  exact hle

/-! ## Whole searches -/

theorem stopped_of_headStart (hstart : m.headStart g o = .ok t) : t.stopped = false := by
  refine headStart_induct (fun t => t.stopped = false) rfl ?_ hstart
  intro d t t' hsubmit ht
  rw [(submit_eq_ok hsubmit).2]
  exact ht

/-- No node is explored by the flood and the dives. -/
theorem untouched_of_opened (hopened : m.opened g o = .ok s) :
    s.tally.explored = 0 ∧ s.tally.stopped = false := by
  obtain ⟨begun, hstart, hopened⟩ := solving_bind_eq_ok.1 hopened
  obtain ⟨blank, _, hopened⟩ := solving_bind_eq_ok.1 hopened
  obtain ⟨outlook, _, hopened⟩ := solving_bind_eq_ok.1 hopened
  obtain ⟨⟨roots, entered⟩, hfollow, hopened⟩ := solving_bind_eq_ok.1 hopened
  cases hopened
  exact ⟨(explored_of_follow hfollow).trans (explored_of_headStart hstart),
    (stopped_of_follow hfollow).trans (stopped_of_headStart hstart)⟩

theorem after_of_searchFirst {budget : Nat} (hfirst : m.searchFirst g o budget = .ok s) :
    s.After budget := by
  obtain ⟨start, hopened, hfirst⟩ := solving_bind_eq_ok.1 hfirst
  obtain ⟨hzero, hgoing⟩ := untouched_of_opened hopened
  have hafter := after_of_visitFirst budget start hgoing hfirst
  rwa [hzero, Nat.zero_add] at hafter

/-- The first visits do not depend on the node limit. -/
theorem searchFirst_withNodes (nodes : Option Nat) (budget : Nat) :
    m.searchFirst g { o with maxNodes := nodes } budget = m.searchFirst g o budget :=
  congrArg (· >>= m.visitFirst (max o.frontier 1) budget) (opened_withNodes nodes)

/-- A search whose limits are not met by so many nodes begins like the search without
limits. -/
theorem search_eq_searchFirst {budget : Nat} (hallow : (o.limits clock).Allow budget) :
    m.search g o clock =
      m.searchFirst g o budget >>= m.resume (o.limits clock) (max o.frontier 1) := by
  rw [search_eq_resume, searchFirst, bind_assoc]
  cases hopened : m.opened g o with
  | error e => rfl
  | ok start =>
      obtain ⟨hzero, hgoing⟩ := untouched_of_opened hopened
      exact resume_eq_visitFirst budget start hgoing (by rwa [hzero, Nat.zero_add])

/-- A search with a node limit and the search without limits go apart after as many
visits as the limit says, if they do. -/
theorem exists_stage_of_search (hnodes : o.maxNodes = some limit)
    (htime : o.maxMilliseconds = none) (hsearch : m.search g o clock = .ok t)
    (clock' : Nat → Nat) : ∃ s, m.searchFirst g o limit = .ok s ∧ s.After limit ∧ t = s.cut ∧
      m.search g { o with maxNodes := none } clock' = m.resume .free (max o.frontier 1) s := by
  have hlimits : o.limits clock = .ofNodes limit := Options.limits_eq_ofNodes hnodes htime
  have hfree : Options.limits { o with maxNodes := none } clock' = .free :=
    Options.limits_eq_free rfl htime
  rw [search_eq_searchFirst (hlimits ▸ Limits.ofNodes_allow limit), hlimits] at hsearch
  obtain ⟨s, hfirst, hsearch⟩ := solving_bind_eq_ok.1 hsearch
  have hafter := after_of_searchFirst hfirst
  -- here the search with the limit ends, and the other one goes on
  rw [resume_ofNodes hafter] at hsearch
  cases hsearch
  refine ⟨s, hfirst, hafter, rfl, ?_⟩
  rw [search_eq_searchFirst (hfree ▸ Limits.free_allow limit), hfree, searchFirst_withNodes, hfirst]
  rfl

/-- If the search without limits explores no more nodes than that, it is over then. -/
theorem cut_eq_of_explored_le {s : Stage} (h : s.After limit)
    (hrest : m.resume .free size s = .ok last) (hle : last.explored ≤ limit) : s.cut = last := by
  by_cases hdone : s.pending = []
  · rw [resume_of_done hdone] at hrest
    cases hrest
    exact Stage.cut_of_done hdone
  · have hlt := explored_lt_of_resume hrest h.going hdone
    rw [h.explored_eq hdone] at hlt
    omega

end Model

/-! ## Answers -/

/-- A solution with the time that it took left out. -/
def Solution.untimed (found : Solution) : Solution :=
  { found with effort := { found.effort with elapsed := 0 } }

namespace Tally

variable {found found' : Solution}

theorem shown_of_solution? (h : t.solution? clock = some found) :
    found.effort.explored = t.explored ∧ (found.provenOptimal = true ↔ t.stopped = false) := by
  obtain ⟨s, _, rfl⟩ := Option.map_eq_some_iff.1 h
  exact ⟨rfl, by simp⟩

/-- Only the time can be different when one tally is answered twice. -/
theorem untimed_eq_of_solution? {clock' : Nat → Nat} (h : t.solution? clock = some found)
    (h' : t.solution? clock' = some found') : found.untimed = found'.untimed := by
  obtain ⟨s, hbest, rfl⟩ := Option.map_eq_some_iff.1 h
  obtain ⟨s', hbest', rfl⟩ := Option.map_eq_some_iff.1 h'
  rw [hbest] at hbest'
  cases hbest'
  rfl

end Tally

/-- A search of a built model that has no obstacle, with a node limit and no other, under
every bank.  It shows the stage `s` of the search without limits after `limit` visits,
where the next node, if one is pending, is counted but not explored; and the search
without limits goes on from `s`.  So at most one node more than the limit is counted, and
just when no more than the limit are counted is the answer called optimal.  If the search
without limits explores no more nodes than that, both answers are the same but for the
time that has passed. -/
theorem node_limit_exact {p : Problem} {bank : RuleBank} {m : Model}
    (h : p.model bank = .ok m) (hclear : m.obstacle = .ok none) {σ : Type} (g : Generator σ)
    {o : Options} {limit : Nat}
    (hnodes : o.maxNodes = some limit) (htime : o.maxMilliseconds = none)
    (clock clock' : Nat → Nat) :
    ∃ s last found whole,
      (m.searchFirst g o limit = .ok s ∧ m.resume .free (max o.frontier 1) s = .ok last) ∧
      (m.solve g o clock = .ok (.feasible found) ∧ s.cut.solution? clock = some found) ∧
      (m.solve g { o with maxNodes := none } clock' = .ok (.feasible whole) ∧
        last.solution? clock' = some whole) ∧
      s.tally.explored ≤ limit ∧ (s.pending ≠ [] → s.tally.explored = limit) ∧
      found.effort.explored ≤ limit + 1 ∧
      (found.provenOptimal = true ↔ found.effort.explored ≤ limit) ∧
      (whole.effort.explored ≤ limit → found.untimed = whole.untimed) := by
  have hm := wellFormed_of_model h
  have hs := storable_of_model h
  obtain ⟨found, hfound⟩ := Model.exists_feasible hm hs hclear g o clock
  obtain ⟨whole, hwhole⟩ := Model.exists_feasible hm hs hclear g { o with maxNodes := none } clock'
  obtain ⟨t, hsearch, hshown⟩ := Model.search_of_solve hfound
  obtain ⟨last, hunlimited, hlast⟩ := Model.search_of_solve hwhole
  obtain ⟨s, hfirst, hafter, rfl, hsame⟩ :=
    Model.exists_stage_of_search hnodes htime hsearch clock'
  rw [hsame] at hunlimited
  obtain ⟨hexplored, hproven⟩ := Tally.shown_of_solution? hshown
  obtain ⟨hmost, hstopped⟩ := hafter.cut_explored
  refine ⟨s, last, found, whole, ⟨hfirst, hunlimited⟩, ⟨hfound, hshown⟩, ⟨hwhole, hlast⟩,
    hafter.explored_le, hafter.explored_eq, ?_, ?_, ?_⟩
  · rw [hexplored]
    exact hmost
  · rw [hexplored, hproven]
    exact hstopped
  · intro hle
    rw [(Tally.shown_of_solution? hlast).1] at hle
    rw [Model.cut_eq_of_explored_le hafter hunlimited hle] at hshown
    exact Tally.untimed_eq_of_solution? hshown hlast

/-- The meeting, when five nodes may be explored. -/
theorem meetingModel_limited :
    meeting.model .standard = .ok meetingModel ∧ meetingModel.obstacle = .ok none ∧
      ∃ found, meetingModel.solve Xoshiro.generator { Options.standard with maxNodes := some 5 }
          (fun _ => 0) =
          .ok (.feasible found) ∧ found.effort.explored ≤ 6 ∧
        (found.provenOptimal = true ↔ found.effort.explored ≤ 5) := by
  have hbuilt : meeting.model .standard = .ok meetingModel := rfl
  have hclear : meetingModel.obstacle = .ok none := rfl
  obtain ⟨_, _, found, _, _, ⟨hsolve, _⟩, _, _, _, hmost, hproven, _⟩ :=
    node_limit_exact hbuilt hclear Xoshiro.generator
      (o := { Options.standard with maxNodes := some 5 }) rfl rfl (fun _ => 0) (fun _ => 0)
  exact ⟨hbuilt, hclear, found, hsolve, hmost, hproven⟩

end ChainPropagation
