import ChainPropagation.Proofs.Workers

/-!
# One worker

A team of one does what `Model.solve` does: it makes the dives one after another, and
explores the subtrees one after another, each to its end.  So what is proved of any
number of workers holds of one, and what is proved of one describes a team.

To see this, the steps of a busy worker are put together until it comes to its next
node (`steadily_visit`), to the end of its subtree (`steadily_next`), and to the end of
all jobs.

## Main results

* `solveTogether_alone` — the answer of a single worker, whatever it is.
-/

namespace ChainPropagation

namespace Team

/-- A team in which the only worker is busy. -/
def busy (t : Tally) (jobs : List Task) (task : Task) : Team := ⟨t, jobs, [task], 0⟩

/-- A team in which the only worker is idle. -/
def spare (t : Tally) (jobs : List Task) : Team := ⟨t, jobs, [], 1⟩

end Team

namespace Model

variable {m : Model} {limits : Limits} {dive : Nat → Checked (Option Draft)} {t : Tally}
  {jobs : List Task} {task : Task} {rest : List SearchNode}

/-! ## A steady worker -/

/-- What a team comes to that only does what is next. -/
def steadily (m : Model) (limits : Limits) (dive : Nat → Checked (Option Draft)) (c : Team) :
    Solving Tally :=
  m.work limits dive (fun _ => .steady) 0 c

/-- What happens next does not depend on the turn. -/
theorem work_steady (turn : Nat) (c : Team) :
    m.work limits dive (fun _ => .steady) turn c = m.steadily limits dive c := by
  have hsame : ∀ turn turn' c, m.work limits dive (fun _ => .steady) turn c =
      m.work limits dive (fun _ => .steady) turn' c := by
    intro turn turn' c
    fun_induction Model.work m limits dive (fun _ => .steady) turn c generalizing turn' with
    | case1 turn c fault hmove => rw [work]; split <;> simp_all
    | case2 turn c hmove => rw [work]; split <;> simp_all
    | case3 turn c c' hmove ih =>
        rw [ih (turn' + 1)]
        conv => rhs; rw [work]
        split <;> simp_all
  exact hsame turn 0 c

theorem steadily_eq (c : Team) : m.steadily limits dive c =
    m.move limits dive .steady c >>= fun
      | none => .ok c.tally
      | some c' => m.steadily limits dive c' := by
  rw [steadily, work]
  split
  · rename_i e h
    rw [h]
    rfl
  · rename_i h
    rw [h]
    rfl
  · rename_i c' h
    rw [h, work_steady]
    rfl

theorem seenAs_steady (t : Tally) :
    t.seenAs Choice.steady.earlier = ⟨t.incumbent.bound, t.stopped⟩ := by
  simp [Tally.seenAs, Choice.steady]

/-- Who is busy takes a step. -/
theorem steadily_busy (t : Tally) (jobs : List Task) (task : Task) :
    m.steadily limits dive (.busy t jobs task) =
      m.act limits dive ⟨t.incumbent.bound, t.stopped⟩ t task >>= fun after =>
        m.steadily limits dive (after.2.elim (.spare after.1 jobs) (.busy after.1 jobs)) := by
  have hdraw : draw [task] Choice.steady.worker = some (task, []) := rfl
  rw [steadily_eq]
  have hmove : m.move limits dive .steady (.busy t jobs task) =
      m.goOn limits dive .steady (.busy t jobs task) := by
    unfold move
    split
    · exact if_neg (by simp [Choice.steady, Team.busy])
    · rfl
  rw [hmove, goOn, Team.busy]
  simp only [hdraw, seenAs_steady]
  cases m.act limits dive ⟨t.incumbent.bound, t.stopped⟩ t task with
  | error e => rfl
  | ok after =>
      obtain ⟨t', left⟩ := after
      cases left <;> rfl

/-- Who is idle takes up the next job. -/
theorem steadily_spare_cons (t : Tally) (job : Task) (jobs : List Task) :
    m.steadily limits dive (.spare t (job :: jobs)) =
      m.steadily limits dive (.busy t jobs job) := by
  have hdraw : draw (job :: jobs) Choice.steady.job = some (job, jobs) := by
    simp [draw, Choice.steady]
  rw [steadily_eq]
  simp [move, Team.taken, Team.spare, hdraw, Team.busy]

theorem steadily_spare_nil (t : Tally) : m.steadily limits dive (.spare t []) = .ok t := by
  rw [steadily_eq]
  rfl

/-! ## One node -/

/-- A schedule that was judged is offered. -/
theorem steadily_accept (t : Tally) (jobs : List Task) (s : Schedule) (rest : List SearchNode) :
    m.steadily limits dive (.busy t jobs ⟨.accept s, rest⟩) =
      m.steadily limits dive (.busy { t with
        incumbent := (t.incumbent.offer s).2
        accepted := t.accepted + 1 } jobs ⟨.next, rest⟩) := by
  rw [steadily_busy]
  show m.steadily limits dive (.busy _ jobs ⟨.offer s, rest⟩) = _
  rw [steadily_busy, Incumbent.offer_eq]
  by_cases hbetter : s.cost < t.incumbent.bound
  · simp only [act, if_pos hbetter, ok_bind, Option.elim_some]
    rw [steadily_busy]
    rfl
  · simp only [act, if_neg hbetter, ok_bind, Option.elim_some]
    rw [Incumbent.consider_of_le (Nat.not_lt.1 hbetter)]

theorem steadily_submit (limits : Limits) (dive : Nat → Checked (Option Draft)) (t : Tally)
    (jobs : List Task) (d : Draft) (rest : List SearchNode) :
    (m.judged d >>= fun s => m.steadily limits dive (.busy t jobs ⟨.accept s, rest⟩)) =
      m.submit d t >>= fun t' => m.steadily limits dive (.busy t' jobs ⟨.next, rest⟩) := by
  rw [submit]
  cases m.judged d with
  | error e => rfl
  | ok s => exact steadily_accept t jobs s rest

/-- What lies below a node is looked at. -/
theorem steadily_look (t : Tally) (jobs : List Task) (n : SearchNode) (rest : List SearchNode) :
    m.steadily limits dive (.busy t jobs ⟨.look n, rest⟩) =
      (do
        let needed ← m.leastCost n.draft
        if t.incumbent.bound ≤ needed then
          return ([], { t with cutByBound := t.cutByBound + 1 })
        m.follow t (← m.branch n) : Solving (List SearchNode × Tally)) >>= fun after =>
        m.steadily limits dive (.busy after.2 jobs ⟨.next, after.1 ++ rest⟩) := by
  rw [steadily_busy]
  simp only [act]
  cases m.leastCost n.draft with
  | error e => rfl
  | ok needed =>
      simp only [lift_ok, ok_bind]
      by_cases hcut : t.incumbent.bound ≤ needed
      · simp only [if_pos hcut]
        exact steadily_busy t jobs ⟨.cutByBound, rest⟩
      · simp only [if_neg hcut]
        cases m.branch n with
        | error e => rfl
        | ok outlook =>
            simp only [lift_ok, ok_bind]
            cases outlook with
            | closed => rfl
            | unreachable => exact steadily_busy t jobs ⟨.cutByReach, rest⟩
            | complete d =>
                have hsubmit := steadily_submit (m := m) limits dive t jobs d rest
                simp only [follow, bind_assoc, pure_bind, Option.elim_some] at hsubmit ⊢
                exact hsubmit
            | children nodes => rfl

/-- A worker explores a node: what lies below is to be explored next. -/
theorem steadily_visit (t : Tally) (jobs : List Task) (n : SearchNode) (rest : List SearchNode)
    (hgoing : t.stopped = false) :
    m.steadily limits dive (.busy t jobs ⟨.next, n :: rest⟩) =
      m.visit limits n t >>= fun after =>
        m.steadily limits dive (.busy after.2 jobs ⟨.next, after.1 ++ rest⟩) := by
  rw [steadily_busy]
  simp only [act, hgoing, Bool.false_eq_true, if_false, ok_bind, Option.elim_some]
  rw [steadily_busy]
  show m.steadily limits dive (.busy { t with explored := t.explored + 1 } jobs
    ⟨.check (t.explored + 1) n, rest⟩) = _
  rw [steadily_busy]
  by_cases hmet : limits.met (t.explored + 1) = true
  · have hpast : Tally.pastLimit { t with explored := t.explored + 1 } limits = true := by
      simp [Tally.pastLimit, hmet]
    rw [visit_of_pastLimit hpast]
    simp only [act, hgoing, hmet, Bool.false_eq_true, if_false, if_true, ok_bind, Option.elim_some]
    rw [steadily_busy]
    rfl
  · have hpast : Tally.pastLimit { t with explored := t.explored + 1 } limits = false := by
      simp [Tally.pastLimit, hmet, hgoing]
    have hcheck (bound : Nat) (t' : Tally) :
        m.act limits dive ⟨bound, t.stopped⟩ t' ⟨.check (t.explored + 1) n, rest⟩ =
          .ok (t', some ⟨.look n, rest⟩) := by
      simp [act, hgoing, hmet]
    rw [hcheck, ok_bind, Option.elim_some, steadily_look, visit]
    simp only [hpast, Bool.false_eq_true, if_false]

/-! ## All jobs -/

/-- What holds if nothing is left to explore, or the search is stopped, and else if it
holds after a visit, holds of all lists of nodes: a visit makes them lighter. -/
theorem pending_induct {motive : List SearchNode → Tally → Prop} (limits : Limits)
    (nil : ∀ t, motive [] t)
    (stopped : ∀ n rest t, t.stopped = true → motive (n :: rest) t)
    (visited : ∀ n rest t, t.stopped = false →
      (∀ nodes t', m.visit limits n t = .ok (nodes, t') → motive (nodes ++ rest) t') →
      motive (n :: rest) t)
    (pending : List SearchNode) (t : Tally) : motive pending t := by
  induction hweight : m.weight pending using Nat.strongRecOn generalizing pending t with
  | _ weight ih =>
      cases pending with
      | nil => exact nil t
      | cons n rest =>
          cases hgoing : t.stopped with
          | true => exact stopped n rest t hgoing
          | false =>
              refine visited n rest t hgoing fun nodes t' hvisit => ?_
              have hlt := weight_lt_of_visit hvisit
              rw [weight_cons] at hweight
              exact ih (m.weight (nodes ++ rest)) (by rw [weight_append]; omega) _ _ rfl

/-- A worker explores all that is left of a subtree. -/
theorem steadily_next (size : Nat) (t : Tally) (jobs : List Task) (pending : List SearchNode) :
    m.steadily limits dive (.busy t jobs ⟨.next, pending⟩) =
      m.visitAll limits size true pending t >>= fun t' =>
        m.steadily limits dive (.spare t' jobs) := by
  induction pending, t using pending_induct (m := m) limits with
  | nil t =>
      rw [visitAll]
      exact steadily_busy t jobs ⟨.next, []⟩
  | stopped n rest t hstopped =>
      rw [visitAll_of_stopped hstopped true _, steadily_busy]
      simp only [act, hstopped, if_true, ok_bind, Option.elim_none]
  | visited n rest t hgoing ih =>
      rw [steadily_visit t jobs n rest hgoing, visitAll_cons hgoing true n rest]
      cases hvisit : m.visit limits n t with
      | error e => rfl
      | ok after => exact ih after.1 after.2 hvisit

/-- A list of nodes is explored one part after another. -/
theorem visitAll_append (limits : Limits) (size : Nat) (before after : List SearchNode)
    (t : Tally) :
    m.visitAll limits size true (before ++ after) t =
      m.visitAll limits size true before t >>= m.visitAll limits size true after := by
  induction before, t using pending_induct (m := m) limits with
  | nil t =>
      rw [visitAll]
      rfl
  | stopped n rest t hstopped =>
      rw [visitAll_of_stopped hstopped true _, visitAll_of_stopped hstopped true _]
      exact (visitAll_of_stopped hstopped true after).symm
  | visited n rest t hgoing ih =>
      rw [List.cons_append, visitAll_cons hgoing true n _,
        visitAll_cons hgoing true n rest]
      cases hvisit : m.visit limits n t with
      | error e => rfl
      | ok found =>
          have hrest := ih found.1 found.2 hvisit
          rw [List.append_assoc] at hrest
          exact hrest

/-- One subtree after another is explored. -/
theorem steadily_subtrees (size : Nat) (subtrees : List SearchNode) :
    ∀ t, m.steadily limits dive (.spare t (subtrees.map .ofSubtree)) =
      m.visitAll limits size true subtrees t := by
  induction subtrees with
  | nil =>
      intro t
      rw [visitAll]
      exact steadily_spare_nil t
  | cons n rest ih =>
      intro t
      have hsplit := visitAll_append (m := m) limits size [n] rest t
      rw [List.map_cons, steadily_spare_cons, Task.ofSubtree, steadily_next size]
      rw [List.singleton_append] at hsplit
      rw [hsplit]
      exact bind_congr ih

/-- Nodes that are opened one after another, and then explored one after another. -/
theorem visitAll_of_frontier (size : Nat) (pending : List SearchNode) (t : Tally) :
    (m.frontier limits size pending t >>= fun after =>
      m.visitAll limits size true after.1 after.2) =
      m.visitAll limits size false pending t := by
  fun_induction Model.frontier m limits size pending t with
  | case1 t =>
      rw [visitAll, ok_bind, visitAll]
  | case2 t n rest hfull =>
      rw [ok_bind]
      rcases Bool.or_eq_true_iff.1 hfull with hsize | hstopped
      · conv => rhs; rw [visitAll]
        rw [visitAll]
        simp only [hsize, Bool.or_true]
      · rw [visitAll_of_stopped hstopped true _, visitAll_of_stopped hstopped false _]
  | case3 t n rest hmore fault hvisit =>
      obtain ⟨_, hgoing⟩ := Bool.or_eq_false_iff.1 (Bool.not_eq_true _ ▸ hmore)
      rw [visitAll_cons hgoing false n rest, hvisit]
      rfl
  | case4 t n rest hmore nodes t' hvisit ih =>
      obtain ⟨hsize, hgoing⟩ := Bool.or_eq_false_iff.1 (Bool.not_eq_true _ ▸ hmore)
      rw [ih, visitAll_cons hgoing false n rest, hvisit, ok_bind, hsize]
      rfl

/-! ## The dives -/

/-- A worker makes a dive, and offers what comes of it. -/
theorem steadily_dive (t : Tally) (jobs : List Task) (index : Nat) :
    m.steadily limits dive (.busy t jobs (.ofDive index)) =
      (do match ← dive index with
        | some d => m.submit d t
        | none => return t : Solving Tally) >>= fun t' =>
        m.steadily limits dive (.spare t' jobs) := by
  have hdone (t' : Tally) : m.steadily limits dive (.busy t' jobs ⟨.next, []⟩) =
      m.steadily limits dive (.spare t' jobs) := steadily_busy t' jobs ⟨.next, []⟩
  rw [Task.ofDive, steadily_busy]
  simp only [act]
  cases dive index with
  | error e => rfl
  | ok made =>
      cases made with
      | none => exact hdone t
      | some d =>
          have hsubmit := steadily_submit (m := m) limits dive t jobs d []
          simp only [hdone] at hsubmit
          simp only [lift_ok, ok_bind, bind_assoc, pure_bind, Option.elim_some]
          exact hsubmit

variable {σ : Type}

/-- One dive after another is made. -/
theorem steadily_dives (g : Generator σ) (o : Options) (left : Nat) :
    ∀ index t, m.steadily limits (m.diveAt g o)
        (.spare t ((List.range' index left).map .ofDive)) =
      m.diveOften g o left index t := by
  induction left with
  | zero => exact fun _ t => steadily_spare_nil t
  | succ left ih =>
      intro index t
      rw [List.range'_succ, List.map_cons, steadily_spare_cons, steadily_dive, diveOften]
      exact bind_congr (ih (index + 1))

/-! ## The whole search -/

theorem headStartTogether_alone (g : Generator σ) (o : Options) (clock : Nat → Nat) :
    m.headStartTogether g o (.alone clock) 1 = m.headStart g o := by
  rw [headStartTogether, headStart]
  refine bind_congr fun result => ?_
  cases result with
  | none => rfl
  | some d =>
      refine bind_congr fun t => ?_
      rw [List.range_eq_range', ← steadily_dives]
      rfl

theorem searchTogether_alone (g : Generator σ) (o : Options) (clock : Nat → Nat) :
    m.searchTogether g o (.alone clock) 1 = m.search g o clock := by
  rw [searchTogether, search, headStartTogether_alone]
  refine bind_congr fun begun => bind_congr fun blank => bind_congr fun outlook =>
    bind_congr fun entered => ?_
  obtain ⟨roots, t⟩ := entered
  show _ = m.visitAll (o.limits clock) (max o.frontier 1) false roots t
  rw [← visitAll_of_frontier]
  exact bind_congr fun opened => steadily_subtrees (max o.frontier 1) opened.1 opened.2

/-- A team of one answers what one worker answers. -/
theorem solveTogether_alone (m : Model) (g : Generator σ) (o : Options) (clock : Nat → Nat) :
    m.solveTogether g o (.alone clock) = m.solve g o clock := by
  rw [solveTogether, solve]
  refine bind_congr fun obstacle => ?_
  cases obstacle with
  | some reason => rfl
  | none =>
      show (m.searchTogether g o (.alone clock) 1 >>= fun t => m.report t clock) = _
      rw [searchTogether_alone]

end Model

end ChainPropagation
