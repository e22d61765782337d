import ChainPropagation.Solve

/-!
# Several workers

`Model.solve` is what one worker does. If there are several, they share two parts of
the work: the dives, and, once enough nodes of the tree have been opened, the subtrees
below them. Each dive and each subtree is the job of one worker, and all workers share
the tally with the incumbent in it.

A `Task` says what a worker is about to do. In one step, `Model.act`, it reads or
changes at most one thing that is shared, and the steps of all workers follow each
other in any order. What it reads may be out of date: it may see an earlier bound, and
miss that the search was stopped. Only what it changes it sees as it is: each node gets
a number of its own, and where a schedule takes the place of the incumbent there is a
lock, so that the bound is the present one.

Who takes the next step, which job is taken up and what is seen is left to a `Choice`,
and all that is left open in a search makes a `Course`, with `Course.alone` for a single
worker. For each course there is one answer, `Model.solveTogether`. It ends for each,
since a step leaves fewer steps to do (`Model.steps_lt_of_move`).
-/

namespace ChainPropagation

/-! ## Tasks -/

/-- What a worker does next. -/
inductive Phase where
  /-- makes the dive with an index -/
  | dive (index : Nat)
  /-- takes up the next node of its subtree -/
  | next
  /-- counts a node -/
  | count (n : SearchNode)
  /-- finds out whether the node with a number meets a limit -/
  | check (number : Nat) (n : SearchNode)
  /-- stops the search -/
  | stop
  /-- looks what lies below a node, if the bound leaves room for it -/
  | look (n : SearchNode)
  /-- counts a node that is cut off by the bound -/
  | cutByBound
  /-- counts a node below which the endpoints cannot complete -/
  | cutByReach
  /-- counts a schedule that was judged -/
  | accept (s : Schedule)
  /-- compares a schedule with the bound -/
  | offer (s : Schedule)
  /-- puts a schedule in the place of the incumbent, if it still is better -/
  | install (s : Schedule)

/-- What a worker has to do. -/
structure Task where
  phase : Phase
  /-- the nodes of its subtree that are to be explored after that -/
  rest : List SearchNode

namespace Task

/-- The dive with an index. -/
def ofDive (index : Nat) : Task := ⟨.dive index, []⟩

/-- All that lies below a node. -/
def ofSubtree (n : SearchNode) : Task := ⟨.next, [n]⟩

end Task

/-- What a worker sees of the tally. -/
structure Glance where
  bound : Nat
  stopped : Bool

/-- What is seen of a tally by one who may have an earlier one before him: the bound
was not lower, and maybe the search was not stopped. -/
def Tally.seenAs (t : Tally) (earlier : Glance) : Glance where
  bound := max earlier.bound t.incumbent.bound
  stopped := earlier.stopped && t.stopped

namespace Model

/-- One step of a worker: the tally after it, and what remains of the task. -/
def act (m : Model) (limits : Limits) (dive : Nat → Checked (Option Draft)) (seen : Glance)
    (t : Tally) (task : Task) : Solving (Tally × Option Task) :=
  let go (phase : Phase) : Option Task := some { task with phase }
  match task.phase with
  | .dive index => do
    match ← dive index with
    | some d => return (t, go (.accept (← m.judged d)))
    | none => return (t, go .next)
  | .next =>
    match task.rest with
    | [] => .ok (t, none)
    | n :: rest => .ok (t, if seen.stopped then none else some ⟨.count n, rest⟩)
  | .count n =>
    let number := t.explored + 1
    .ok ({ t with explored := number }, go (.check number n))
  | .check number n =>
    .ok (t, go (if seen.stopped then .next else if limits.met number then .stop else .look n))
  | .stop => .ok ({ t with stopped := true }, go .next)
  | .look n => do
    if seen.bound ≤ (← m.leastCost n.draft) then return (t, go .cutByBound)
    match ← m.branch n with
    | .closed => return (t, go .next)
    | .unreachable => return (t, go .cutByReach)
    | .complete d => return (t, go (.accept (← m.judged d)))
    | .children nodes => return (t, some ⟨.next, nodes ++ task.rest⟩)
  | .cutByBound => .ok ({ t with cutByBound := t.cutByBound + 1 }, go .next)
  | .cutByReach => .ok ({ t with cutByReach := t.cutByReach + 1 }, go .next)
  | .accept s => .ok ({ t with accepted := t.accepted + 1 }, go (.offer s))
  | .offer s => .ok (t, go (if s.cost < seen.bound then .install s else .next))
  | .install s => .ok ({ t with incumbent := t.incumbent.consider s }, go .next)

end Model

/-! ## Teams -/

/-- The entry with a number, counted round and round, and the other entries. -/
def draw {α : Type} (entries : List α) (number : Nat) : Option (α × List α) :=
  let index := number % entries.length
  entries[index]?.map fun a => (a, entries.eraseIdx index)

/-- Workers that share a tally. -/
structure Team where
  tally : Tally
  /-- what nobody has taken up yet -/
  jobs : List Task
  /-- what some workers are busy with -/
  tasks : List Task
  /-- how many others there are -/
  idle : Nat

/-- What happens next in a team. -/
structure Choice where
  /-- whether a worker that is idle takes up a job, if there is one -/
  takes : Bool
  /-- which job that is -/
  job : Nat
  /-- which of the others goes on, if not -/
  worker : Nat
  /-- what it has before it -/
  earlier : Glance

namespace Team

/-- A number of workers, before any of them takes up a job. -/
def ofJobs (t : Tally) (jobs : List Task) (workers : Nat) : Team where
  tally := t
  jobs := jobs
  tasks := []
  idle := workers

/-- The team after an idle worker took up a job. -/
def taken (c : Team) (number : Nat) : Option Team :=
  match c.idle, draw c.jobs number with
  | idle + 1, some (job, jobs) => some { c with jobs, tasks := job :: c.tasks, idle }
  | _, _ => none

end Team

namespace Model

/-- The team after a step of a worker that is busy. -/
def goOn (m : Model) (limits : Limits) (dive : Nat → Checked (Option Draft)) (choice : Choice)
    (c : Team) : Solving (Option Team) :=
  match draw c.tasks choice.worker with
  | none => .ok none
  | some (task, tasks) => do
    let (tally, left) ← m.act limits dive (c.tally.seenAs choice.earlier) c.tally task
    match left with
    | some task => return some { c with tally, tasks := task :: tasks }
    | none => return some { c with tally, tasks, idle := c.idle + 1 }

/-- The team after what happens next, unless all is done. -/
def move (m : Model) (limits : Limits) (dive : Nat → Checked (Option Draft)) (choice : Choice)
    (c : Team) : Solving (Option Team) :=
  match c.taken choice.job with
  | some taken =>
    if choice.takes || c.tasks.isEmpty then .ok (some taken) else m.goOn limits dive choice c
  | none => m.goOn limits dive choice c

end Model

/-! ## The work ends -/

section

variable {m : Model} {limits : Limits} {dive : Nat → Checked (Option Draft)}

theorem perm_of_draw {α : Type} {entries rest : List α} {number : Nat} {a : α}
    (h : draw entries number = some (a, rest)) : entries.Perm (a :: rest) := by
  obtain ⟨found, hfound, h⟩ := Option.map_eq_some_iff.1 h
  cases h
  obtain ⟨hlt, rfl⟩ := List.getElem?_eq_some_iff.1 hfound
  have hsplit : entries.take (number % entries.length) ++ entries[number % entries.length] ::
      entries.drop (number % entries.length + 1) = entries := by
    rw [List.getElem_cons_drop, List.take_append_drop]
  rw [List.eraseIdx_eq_take_drop_succ]
  exact (List.Perm.of_eq hsplit.symm).trans List.perm_middle

/-- A bound on the steps that a worker takes from a phase until the next node. -/
def Phase.steps (m : Model) : Phase → Nat
  | .dive _ => 7
  | .next => 1
  | .count n => 8 * Nat.pow 3 (m.height n)
  | .check _ n => 8 * Nat.pow 3 (m.height n) - 1
  | .stop => 2
  | .look n => 8 * Nat.pow 3 (m.height n) - 2
  | .cutByBound => 2
  | .cutByReach => 2
  | .accept _ => 5
  | .offer _ => 4
  | .install _ => 3

/-- A bound on the steps that a task takes. -/
def Task.steps (m : Model) (task : Task) : Nat := task.phase.steps m + 8 * m.weight task.rest

/-- A bound on the steps that several tasks take. -/
def Task.allSteps (m : Model) (tasks : List Task) : Nat :=
  tasks.foldr (fun task total => task.steps m + total) 0

/-- A bound on what can happen in a team; each job is taken up once. -/
def Team.steps (m : Model) (c : Team) : Nat :=
  Task.allSteps m c.jobs + c.jobs.length + Task.allSteps m c.tasks

@[simp] theorem Task.allSteps_cons (m : Model) (task : Task) (tasks : List Task) :
    allSteps m (task :: tasks) = task.steps m + allSteps m tasks := rfl

theorem Task.allSteps_of_perm {before after : List Task} (h : before.Perm after) :
    allSteps m before = allSteps m after := by
  refine h.foldr_eq' (fun a _ b _ total => ?_) 0
  omega

theorem Task.steps_pos (m : Model) (task : Task) : 0 < task.steps m := by
  have hpos : ∀ n, 0 < Nat.pow 3 (m.height n) := fun n => Nat.pow_pos (by decide)
  have hphase : 0 < task.phase.steps m := by
    cases task.phase with
    | count n | check _ n | look n =>
      have hn := hpos n
      simp only [Phase.steps]
      omega
    | _ => exact Nat.succ_pos _
  exact Nat.lt_of_lt_of_le hphase (Nat.le_add_right _ _)

/-- What a worker can do, by the phase at which it is. -/
inductive Acts (m : Model) (limits : Limits) (dive : Nat → Checked (Option Draft)) (seen : Glance)
    (t : Tally) : Task → Tally → Option Task → Prop where
  | dived {index : Nat} {d : Draft} {s : Schedule} {rest : List SearchNode}
      (made : dive index = .ok (some d)) (judged : m.judged d = .ok s) :
      Acts m limits dive seen t ⟨.dive index, rest⟩ t (some ⟨.accept s, rest⟩)
  | sank {index : Nat} {rest : List SearchNode} (made : dive index = .ok none) :
      Acts m limits dive seen t ⟨.dive index, rest⟩ t (some ⟨.next, rest⟩)
  | finished : Acts m limits dive seen t ⟨.next, []⟩ t none
  | halted {n : SearchNode} {rest : List SearchNode} (stopped : seen.stopped = true) :
      Acts m limits dive seen t ⟨.next, n :: rest⟩ t none
  | began {n : SearchNode} {rest : List SearchNode} (going : seen.stopped = false) :
      Acts m limits dive seen t ⟨.next, n :: rest⟩ t (some ⟨.count n, rest⟩)
  | counted {n : SearchNode} {rest : List SearchNode} :
      Acts m limits dive seen t ⟨.count n, rest⟩ { t with explored := t.explored + 1 }
        (some ⟨.check (t.explored + 1) n, rest⟩)
  | skipped {number : Nat} {n : SearchNode} {rest : List SearchNode}
      (stopped : seen.stopped = true) :
      Acts m limits dive seen t ⟨.check number n, rest⟩ t (some ⟨.next, rest⟩)
  | limited {number : Nat} {n : SearchNode} {rest : List SearchNode} (going : seen.stopped = false)
      (met : limits.met number = true) :
      Acts m limits dive seen t ⟨.check number n, rest⟩ t (some ⟨.stop, rest⟩)
  | allowed {number : Nat} {n : SearchNode} {rest : List SearchNode} (going : seen.stopped = false)
      (unmet : limits.met number = false) :
      Acts m limits dive seen t ⟨.check number n, rest⟩ t (some ⟨.look n, rest⟩)
  | stopped {rest : List SearchNode} :
      Acts m limits dive seen t ⟨.stop, rest⟩ { t with stopped := true } (some ⟨.next, rest⟩)
  | bounded {n : SearchNode} {needed : Nat} {rest : List SearchNode}
      (least : m.leastCost n.draft = .ok needed) (bound : seen.bound ≤ needed) :
      Acts m limits dive seen t ⟨.look n, rest⟩ t (some ⟨.cutByBound, rest⟩)
  | closed {n : SearchNode} {rest : List SearchNode} (below : m.branch n = .ok .closed) :
      Acts m limits dive seen t ⟨.look n, rest⟩ t (some ⟨.next, rest⟩)
  | unreachable {n : SearchNode} {rest : List SearchNode}
      (below : m.branch n = .ok .unreachable) :
      Acts m limits dive seen t ⟨.look n, rest⟩ t (some ⟨.cutByReach, rest⟩)
  | completed {n : SearchNode} {d : Draft} {s : Schedule} {rest : List SearchNode}
      (below : m.branch n = .ok (.complete d)) (judged : m.judged d = .ok s) :
      Acts m limits dive seen t ⟨.look n, rest⟩ t (some ⟨.accept s, rest⟩)
  | divided {n : SearchNode} {nodes rest : List SearchNode}
      (below : m.branch n = .ok (.children nodes)) :
      Acts m limits dive seen t ⟨.look n, rest⟩ t (some ⟨.next, nodes ++ rest⟩)
  | cutByBound {rest : List SearchNode} :
      Acts m limits dive seen t ⟨.cutByBound, rest⟩ { t with cutByBound := t.cutByBound + 1 }
        (some ⟨.next, rest⟩)
  | cutByReach {rest : List SearchNode} :
      Acts m limits dive seen t ⟨.cutByReach, rest⟩ { t with cutByReach := t.cutByReach + 1 }
        (some ⟨.next, rest⟩)
  | accepted {s : Schedule} {rest : List SearchNode} :
      Acts m limits dive seen t ⟨.accept s, rest⟩ { t with accepted := t.accepted + 1 }
        (some ⟨.offer s, rest⟩)
  | offered {s : Schedule} {rest : List SearchNode} (better : s.cost < seen.bound) :
      Acts m limits dive seen t ⟨.offer s, rest⟩ t (some ⟨.install s, rest⟩)
  | declined {s : Schedule} {rest : List SearchNode} (worse : seen.bound ≤ s.cost) :
      Acts m limits dive seen t ⟨.offer s, rest⟩ t (some ⟨.next, rest⟩)
  | installed {s : Schedule} {rest : List SearchNode} :
      Acts m limits dive seen t ⟨.install s, rest⟩
        { t with incumbent := t.incumbent.consider s } (some ⟨.next, rest⟩)

theorem Acts.of_act {seen : Glance} {t t' : Tally} {task : Task} {left : Option Task}
    (h : m.act limits dive seen t task = .ok (t', left)) :
    Acts m limits dive seen t task t' left := by
  obtain ⟨phase, rest⟩ := task
  cases phase with
  | dive index =>
    obtain ⟨result, hlifted, h⟩ := Model.solving_bind_eq_ok.1 h
    have hmade := Model.ofChecked_eq_ok.1 hlifted
    cases result with
    | none =>
      cases h
      exact .sank hmade
    | some d =>
      obtain ⟨s, hjudged, h⟩ := Model.solving_bind_eq_ok.1 h
      cases h
      exact .dived hmade hjudged
  | next =>
    cases rest with
    | nil =>
      cases h
      exact .finished
    | cons n rest =>
      cases h
      split
      · exact .halted ‹_›
      · exact .began (Bool.not_eq_true _ ▸ ‹_›)
  | check number n =>
    cases h
    split
    · exact .skipped ‹_›
    · rename_i hgoing
      split
      · exact .limited (Bool.not_eq_true _ ▸ hgoing) ‹_›
      · exact .allowed (Bool.not_eq_true _ ▸ hgoing) (Bool.not_eq_true _ ▸ ‹_›)
  | look n =>
    obtain ⟨needed, hlifted, h⟩ := Model.solving_bind_eq_ok.1 h
    split at h
    · cases h
      exact .bounded (Model.ofChecked_eq_ok.1 hlifted) ‹_›
    · obtain ⟨outlook, hlifted, h⟩ := Model.solving_bind_eq_ok.1 h
      have hbelow := Model.ofChecked_eq_ok.1 hlifted
      cases outlook with
      | closed =>
        cases h
        exact .closed hbelow
      | unreachable =>
        cases h
        exact .unreachable hbelow
      | complete d =>
        obtain ⟨s, hjudged, h⟩ := Model.solving_bind_eq_ok.1 h
        cases h
        exact .completed hbelow hjudged
      | children nodes =>
        cases h
        exact .divided hbelow
  | offer s =>
    cases h
    split
    · exact .offered ‹_›
    · exact .declined (Nat.not_lt.1 ‹_›)
  | count n =>
    cases h
    exact .counted
  | stop =>
    cases h
    exact .stopped
  | cutByBound =>
    cases h
    exact .cutByBound
  | cutByReach =>
    cases h
    exact .cutByReach
  | accept s =>
    cases h
    exact .accepted
  | install s =>
    cases h
    exact .installed

/-- A step leaves fewer steps to do. -/
theorem Acts.steps_lt {seen : Glance} {t t' : Tally} {task task' : Task}
    (h : Acts m limits dive seen t task t' (some task')) : task'.steps m < task.steps m := by
  have hpos : ∀ n, 0 < Nat.pow 3 (m.height n) := fun n => Nat.pow_pos (by decide)
  cases h with
  | divided below =>
    have hless := Model.weight_lt_of_children (Model.length_children_of_branch below)
      (Model.height_of_branch below)
    simp only [Task.steps, Phase.steps, Model.weight_append]
    omega
  | @counted n | @skipped _ n | @limited _ n | @allowed _ n | @bounded n | @closed n
  | @unreachable n | @completed n =>
    have hn := hpos n
    simp only [Task.steps, Phase.steps]
    omega
  | _ =>
    simp only [Task.steps, Phase.steps, Model.weight_cons]
    omega

/-- Whoever takes up a job was idle before. -/
theorem Team.taken_eq_some {c c' : Team} {number : Nat} (h : c.taken number = some c') :
    ∃ idle job jobs, c.idle = idle + 1 ∧ c.jobs.Perm (job :: jobs) ∧
      c' = { c with jobs, tasks := job :: c.tasks, idle } := by
  unfold Team.taken at h
  split at h
  · rename_i idle job jobs hidle hdraw
    cases h
    exact ⟨idle, job, jobs, hidle, perm_of_draw hdraw, rfl⟩
  · cases h

/-- How a busy worker goes on: it takes a step of its task, which may be the last one. -/
theorem Model.goOn_eq_ok {choice : Choice} {c c' : Team}
    (h : m.goOn limits dive choice c = .ok (some c')) :
    ∃ task tasks tally left, c.tasks.Perm (task :: tasks) ∧
      m.act limits dive (c.tally.seenAs choice.earlier) c.tally task = .ok (tally, left) ∧
      c' = { c with
        tally
        tasks := left.toList ++ tasks
        idle := if left.isSome then c.idle else c.idle + 1 } := by
  unfold Model.goOn at h
  split at h
  · cases h
  · rename_i task tasks hdraw
    obtain ⟨⟨tally, left⟩, hact, h⟩ := Model.solving_bind_eq_ok.1 h
    refine ⟨task, tasks, tally, left, perm_of_draw hdraw, hact, ?_⟩
    cases left with
    | none =>
      cases h
      rfl
    | some task' =>
      cases h
      rfl

/-- Whatever happens in a team leaves fewer steps to do. -/
theorem Model.steps_lt_of_move {choice : Choice} {c c' : Team}
    (h : m.move limits dive choice c = .ok (some c')) : c'.steps m < c.steps m := by
  have hgoOn : m.goOn limits dive choice c = .ok (some c') → c'.steps m < c.steps m := by
    intro h
    obtain ⟨task, tasks, tally, left, hperm, hact, rfl⟩ := Model.goOn_eq_ok h
    have htasks := Task.allSteps_of_perm (m := m) hperm
    rw [Task.allSteps_cons] at htasks
    cases left with
    | none =>
      have hpos := Task.steps_pos m task
      simp only [Team.steps, Option.toList, List.nil_append]
      omega
    | some task' =>
      have hless := (Acts.of_act hact).steps_lt
      simp only [Team.steps, Option.toList, List.cons_append, List.nil_append,
        Task.allSteps_cons]
      omega
  unfold Model.move at h
  split at h
  · rename_i taken htaken
    split at h
    · cases h
      obtain ⟨idle, job, jobs, _, hperm, rfl⟩ := Team.taken_eq_some htaken
      have hjobs := Task.allSteps_of_perm (m := m) hperm
      have hlength := hperm.length_eq
      rw [Task.allSteps_cons] at hjobs
      rw [List.length_cons] at hlength
      simp only [Team.steps, Task.allSteps_cons]
      omega
    · exact hgoOn h
  · exact hgoOn h

end

/-! ## Searches -/

namespace Model

/-- The tally when all is done. -/
def work (m : Model) (limits : Limits) (dive : Nat → Checked (Option Draft))
    (choices : Nat → Choice) (turn : Nat) (c : Team) : Solving Tally :=
  match _h : m.move limits dive (choices turn) c with
  | .error e => .error e
  | .ok none => .ok c.tally
  | .ok (some c') => m.work limits dive choices (turn + 1) c'
termination_by c.steps m
decreasing_by exact steps_lt_of_move _h

/-- Explores nodes one after another until there are `size` to be explored: these,
and the tally after it. -/
def frontier (m : Model) (limits : Limits) (size : Nat) (pending : List SearchNode) (t : Tally) :
    Solving (List SearchNode × Tally) :=
  match pending with
  | [] => .ok ([], t)
  | n :: rest =>
    if size ≤ (n :: rest).length || t.stopped then .ok (n :: rest, t)
    else
      match _h : m.visit limits n t with
      | .error e => .error e
      | .ok (nodes, t') => m.frontier limits size (rest ++ nodes) t'
termination_by m.weight pending
decreasing_by
  have hlt := weight_lt_of_visit _h
  rw [weight_append, weight_cons]
  omega

end Model

/-- How a search by several workers happens to go. -/
structure Course where
  /-- what comes of starting so many workers, or as many as there may be if that is 0:
  some are started, or there is a reason why not -/
  start : Nat → Except String { workers : Nat // 0 < workers }
  /-- what happens in turn while dives are made -/
  dives : Nat → Choice
  /-- what happens in turn while subtrees are explored -/
  subtrees : Nat → Choice
  clock : Nat → Nat

/-- A job is taken up only if nobody is busy, and whoever is sees the tally as it is. -/
def Choice.steady : Choice where
  takes := false
  job := 0
  worker := 0
  earlier := { bound := 0, stopped := true }

/-- A single worker that has nothing out of date before it. -/
def Course.alone (clock : Nat → Nat) : Course where
  start _ := .ok ⟨1, Nat.one_pos⟩
  dives _ := .steady
  subtrees _ := .steady
  clock := clock

/-- What is reported when the workers cannot be started. -/
def Options.refusal (o : Options) (why : String) : Failure :=
  .error (.configuration s!"cannot start {o.workers} workers: {why}")

namespace Model

variable {σ : Type}

/-- The tally after the flood and the dives, which no limit concerns. -/
def headStartTogether (m : Model) (g : Generator σ) (o : Options) (course : Course)
    (workers : Nat) : Solving Tally := do
  let some d ← m.flood | throw m.floodFailure
  let t ← m.submit d .fresh
  let jobs := (List.range o.dives).map .ofDive
  m.work .free (m.diveAt g o) course.dives 0 (.ofJobs t jobs workers)

/-- The tally after the whole search. -/
def searchTogether (m : Model) (g : Generator σ) (o : Options) (course : Course)
    (workers : Nat) : Solving Tally := do
  let t ← m.headStartTogether g o course workers
  let (roots, t) ← m.follow t (← m.enter (← m.blankDraft))
  let limits := o.limits course.clock
  let (subtrees, t) ← m.frontier limits (max o.frontier 1) roots t
  m.work limits (m.diveAt g o) course.subtrees 0 (.ofJobs t (subtrees.map .ofSubtree) workers)

/-- A schedule with the fewest messages, unless a limit ends the search; found by
workers together. -/
def solveTogether (m : Model) (g : Generator σ) (o : Options) (course : Course) :
    Solving Outcome := do
  if let some reason ← m.obstacle then return .infeasible reason
  match course.start o.workers with
  | .error why => .error (o.refusal why)
  | .ok workers => m.report (← m.searchTogether g o course workers) course.clock

end Model

end ChainPropagation
