import ChainPropagation.Proofs.Runs
import ChainPropagation.Workers

/-!
# Any number of workers

Workers that share a search lose nothing, whatever they do and whatever they see of each
other.  The bound goes down only, so that a worker that sees an earlier one merely
explores more, and a schedule takes the place of the incumbent only if it has fewer
messages.  At every time one of three things holds of each complete draft of the tree
(`Team.Leads`): the search was stopped, or the bound is as low, or some task still leads
there.

A step of a proper task meets no fault (`Task.Proper.exists_act`).  What it keeps of the
task and of the tally (`Acts.proper`, `Acts.follows`, `Acts.leads_of_phase`,
`Acts.leads_of_rest`, `Acts.calm`) is kept of the team, whoever takes the step
(`Team.Moves`), and so it is until all is done.

## Main results

* `Team.Proper.work_eq` — a team finishes its work, and what that is worth.
* `solveTogether_eq` — workers answer, whatever happens, unless they cannot be started.
* `workers_agree` — without limits all searches come to as many messages.
-/

namespace ChainPropagation

variable {m : Model} {limits : Limits} {dive : Nat → Checked (Option Draft)} {seen : Glance}
  {t t' : Tally} {task task' : Task} {left : Option Task} {leaf : Draft}

/-! ## What tasks are about -/

/-- A schedule that a search may find. -/
structure Model.Finds (m : Model) (s : Schedule) : Prop where
  lawful : m.Lawful s
  runs : m.Runs s

/-- A node that a search may come to. -/
structure SearchNode.Open (m : Model) (n : SearchNode) : Prop where
  sound : n.Sound m
  within : n.Within m

/-- A tally whose incumbent, if there is one, may be found. -/
structure Tally.Proper (m : Model) (t : Tally) : Prop where
  sound : t.incumbent.Sound m
  runs : t.incumbent.Runs m

/-- What a worker is about to do concerns what a search may come to. -/
def Phase.Proper (m : Model) : Phase → Prop
  | .count n => n.Open m
  | .check _ n => n.Open m
  | .look n => n.Open m
  | .accept s => m.Finds s
  | .offer s => m.Finds s
  | .install s => m.Finds s
  | _ => True

/-- So does all of its task. -/
structure Task.Proper (m : Model) (task : Task) : Prop where
  phase : task.phase.Proper m
  rest : ∀ n ∈ task.rest, n.Open m

/-- Each dive comes to a draft that is done. -/
def Model.Dives (m : Model) (dive : Nat → Checked (Option Draft)) : Prop :=
  ∀ index, ∃ d, dive index = .ok (some d) ∧ d.Finished m ∧ m.Runs d.schedule

namespace Model

theorem finds_of_judged {d : Draft} {s : Schedule} (hjudged : m.judged d = .ok s)
    (hd : d.Finished m) (hruns : m.Runs d.schedule) : m.Finds s := by
  obtain ⟨rfl, _⟩ := judged_eq_ok hjudged
  exact ⟨hd.lawful, hruns⟩

theorem Dives.finds (hdives : m.Dives dive) {index : Nat} {d : Draft} {s : Schedule}
    (hmade : dive index = .ok (some d)) (hjudged : m.judged d = .ok s) : m.Finds s := by
  obtain ⟨d', hdive, hdone, hruns⟩ := hdives index
  rw [hmade] at hdive
  cases hdive
  exact finds_of_judged hjudged hdone hruns

end Model

section

variable (hm : m.WellFormed) (hs : m.Storable)

include hm hs

/-- What lies below a node that a search may come to. -/
theorem SearchNode.Open.outlook {n : SearchNode} {outlook : Outlook} (h : n.Open m)
    (hbelow : m.branch n = .ok outlook) : outlook.Sound m ∧ outlook.Runs m := by
  obtain ⟨outlook', hbranch, hsound⟩ := h.sound.branch_eq hm
  rw [hbelow] at hbranch
  cases hbranch
  exact ⟨hsound, h.within.branch_runs hm hs.horizon_lt hbelow⟩

theorem SearchNode.Open.finds {n : SearchNode} {d : Draft} {s : Schedule} (h : n.Open m)
    (hbelow : m.branch n = .ok (.complete d)) (hjudged : m.judged d = .ok s) : m.Finds s := by
  obtain ⟨hdone, hrun⟩ := h.outlook hm hs hbelow
  exact Model.finds_of_judged hjudged hdone ⟨d, hrun, rfl⟩

theorem SearchNode.Open.children {n : SearchNode} {nodes : List SearchNode} (h : n.Open m)
    (hbelow : m.branch n = .ok (.children nodes)) : ∀ c ∈ nodes, c.Open m := by
  obtain ⟨hsound, hruns⟩ := h.outlook hm hs hbelow
  exact fun c hc => ⟨hsound c hc, hruns c hc⟩

/-! ## One step of a worker -/

/-- A proper task meets no fault. -/
theorem Task.Proper.exists_act (h : task.Proper m) (hdives : m.Dives dive) (limits : Limits)
    (seen : Glance) (t : Tally) : ∃ t' left, m.act limits dive seen t task = .ok (t', left) := by
  obtain ⟨phase, rest⟩ := task
  cases phase with
  | dive index =>
      obtain ⟨d, hdive, hdone, _⟩ := hdives index
      have hjudged := Model.judged_eq hm hs hdone
      exact ⟨t, some ⟨.accept d.schedule, rest⟩, by simp [Model.act, hdive, hjudged]⟩
  | look n =>
      have hn : n.Open m := h.phase
      obtain ⟨first, last, hneeded, _⟩ := hn.sound.draft.stillNeeded_eq hm
      have hleast := Model.leastCost_eq hm hs hn.sound.draft hneeded
      obtain ⟨outlook, hbranch, houtlook⟩ := hn.sound.branch_eq hm
      by_cases hcut : seen.bound ≤ n.draft.messages.size + (first + last)
      · exact ⟨t, some ⟨.cutByBound, rest⟩, by simp [Model.act, hleast, hcut]⟩
      · cases outlook with
        | closed => exact ⟨t, some ⟨.next, rest⟩, by simp [Model.act, hleast, hcut, hbranch]⟩
        | unreachable =>
            exact ⟨t, some ⟨.cutByReach, rest⟩, by simp [Model.act, hleast, hcut, hbranch]⟩
        | complete d =>
            have hjudged := Model.judged_eq hm hs houtlook
            exact ⟨t, some ⟨.accept d.schedule, rest⟩,
              by simp [Model.act, hleast, hcut, hbranch, hjudged]⟩
        | children nodes =>
            exact ⟨t, some ⟨.next, nodes ++ rest⟩, by simp [Model.act, hleast, hcut, hbranch]⟩
  | next =>
      cases rest with
      | nil => exact ⟨t, none, rfl⟩
      | cons n rest => exact ⟨t, _, rfl⟩
  | _ => exact ⟨_, _, rfl⟩

/-- What remains of a proper task is proper. -/
theorem Acts.proper (hacts : Acts m limits dive seen t task t' (some task'))
    (hdives : m.Dives dive) (h : task.Proper m) : task'.Proper m := by
  cases hacts with
  | dived made judged => exact ⟨hdives.finds made judged, h.rest⟩
  | began =>
      obtain ⟨hn, hrest⟩ := List.forall_mem_cons.1 h.rest
      exact ⟨hn, hrest⟩
  | completed below judged =>
      have hn : SearchNode.Open m _ := h.phase
      exact ⟨hn.finds hm hs below judged, h.rest⟩
  | divided below =>
      have hn : SearchNode.Open m _ := h.phase
      exact ⟨trivial, List.forall_mem_append.2 ⟨hn.children hm hs below, h.rest⟩⟩
  | counted => exact ⟨h.phase, h.rest⟩
  | allowed => exact ⟨h.phase, h.rest⟩
  | accepted => exact ⟨h.phase, h.rest⟩
  | offered => exact ⟨h.phase, h.rest⟩
  | _ => exact ⟨trivial, h.rest⟩

end

/-- Only an improvement changes the incumbent, and the bound does not go up by it. -/
theorem Acts.follows (hacts : Acts m limits dive seen t task t' left) (h : task.Proper m)
    (ht : t.Proper m) : t.Follows m t' ∧ t'.Proper m := by
  cases hacts with
  | @installed s rest =>
      have hfinds : m.Finds s := h.phase
      have hsound := ht.sound.consider hfinds.lawful
      refine ⟨⟨?_, hsound, id⟩, ⟨hsound, ht.runs.consider hfinds.runs⟩⟩
      rw [Incumbent.bound_consider]
      exact Nat.min_le_left _ _
  | stopped => exact ⟨⟨Nat.le_refl _, ht.sound, fun _ => rfl⟩, ⟨ht.sound, ht.runs⟩⟩
  | _ => exact ⟨⟨Nat.le_refl _, ht.sound, id⟩, ⟨ht.sound, ht.runs⟩⟩

/-! ## What is not lost -/

/-- A complete draft is accounted for: the search was stopped, or the bound is as low. -/
def Tally.Settles (t : Tally) (leaf : Draft) : Prop :=
  t.stopped = true ∨ t.incumbent.bound ≤ leaf.messages.size

theorem Tally.Settles.mono (h : t.Settles leaf) (hfollows : t.Follows m t') : t'.Settles leaf :=
  h.imp hfollows.stopped (Nat.le_trans hfollows.bound_le)

/-- A complete draft is yet to come from what a worker is about to do. -/
def Phase.Leads (m : Model) (dive : Nat → Checked (Option Draft)) (leaf : Draft) : Phase → Prop
  | .dive index => dive index = .ok (some leaf)
  | .count n => n.Leads m leaf
  | .check _ n => n.Leads m leaf
  | .look n => n.Leads m leaf
  | .accept s => s.cost = leaf.messages.size
  | .offer s => s.cost = leaf.messages.size
  | .install s => s.cost = leaf.messages.size
  -- a search that is about to be stopped need not come to anything
  | .stop => True
  | _ => False

/-- A complete draft is yet to come from a task. -/
def Task.Leads (m : Model) (dive : Nat → Checked (Option Draft)) (leaf : Draft) (task : Task) :
    Prop :=
  task.phase.Leads m dive leaf ∨ ∃ n ∈ task.rest, n.Leads m leaf

theorem Task.proper_ofSubtree {n : SearchNode} (h : n.Open m) : (ofSubtree n).Proper m :=
  ⟨trivial, fun _ hc => List.mem_singleton.1 hc ▸ h⟩

theorem Task.leads_ofSubtree {n : SearchNode} (h : n.Leads m leaf) :
    (ofSubtree n).Leads m dive leaf :=
  .inr ⟨n, List.mem_singleton_self n, h⟩

theorem cost_of_judged {d : Draft} {s : Schedule} (h : m.judged d = .ok s) :
    s.cost = d.messages.size := by
  obtain ⟨rfl, _⟩ := Model.judged_eq_ok h
  exact d.cost_schedule

theorem atLeast_of_leastCost {d : Draft} {most : Nat} (h : m.leastCost d = .ok most) :
    d.AtLeast m most := by
  obtain ⟨needed, hneeded, hfits⟩ := bind_eq_ok.1 h
  exact ⟨needed, hneeded, Nat.le_of_eq (eq_of_fitting hfits)⟩

/-- What is yet to come from a phase is not lost in a step, since no bound that is seen
is lower than the present one. -/
theorem Acts.leads_of_phase (hacts : Acts m limits dive seen t task t' left) (hm : m.WellFormed)
    (hbound : t.incumbent.bound ≤ seen.bound) (hstopped : seen.stopped = true → t.stopped = true)
    (h : task.Proper m) (hleads : task.phase.Leads m dive leaf) :
    t'.Settles leaf ∨ ∃ task' ∈ left, task'.Leads m dive leaf := by
  cases hacts with
  | dived made judged =>
      cases made.symm.trans hleads
      exact .inr ⟨_, rfl, .inl (cost_of_judged judged)⟩
  | sank made => cases made.symm.trans hleads
  | skipped stopped => exact .inl (.inl (hstopped stopped))
  | limited => exact .inr ⟨_, rfl, .inl trivial⟩
  | stopped => exact .inl (.inl rfl)
  | @bounded n needed rest least bound =>
      have hn : n.Open m := h.phase
      have hleast := hleads.le_size hn.sound hm (atLeast_of_leastCost least)
      exact .inl (.inr (Nat.le_trans hbound (Nat.le_trans bound hleast)))
  | closed below =>
      obtain ⟨_, hbranch, hleads⟩ := hleads
      cases below.symm.trans hbranch
      cases hleads
  | unreachable below =>
      obtain ⟨_, hbranch, hleads⟩ := hleads
      cases below.symm.trans hbranch
      cases hleads
  | completed below judged =>
      obtain ⟨_, hbranch, hleads⟩ := hleads
      cases below.symm.trans hbranch
      cases hleads
      exact .inr ⟨_, rfl, .inl (cost_of_judged judged)⟩
  | divided below =>
      obtain ⟨_, hbranch, hleads⟩ := hleads
      cases below.symm.trans hbranch
      cases hleads with
      | child mem next rest =>
          exact .inr ⟨_, rfl, .inr ⟨_, List.mem_append_left _ mem, _, next, rest⟩⟩
  | declined worse =>
      have hcost : Schedule.cost _ = _ := hleads
      exact .inl (.inr (Nat.le_trans hbound (hcost ▸ worse)))
  | @installed s rest =>
      refine .inl (.inr ?_)
      rw [Incumbent.bound_consider]
      have hcost : s.cost = _ := hleads
      exact hcost ▸ Nat.min_le_right _ _
  | counted => exact .inr ⟨_, rfl, .inl hleads⟩
  | allowed => exact .inr ⟨_, rfl, .inl hleads⟩
  | accepted => exact .inr ⟨_, rfl, .inl hleads⟩
  | offered => exact .inr ⟨_, rfl, .inl hleads⟩
  | _ => cases hleads

/-- Nor is what is yet to come from the rest of a subtree. -/
theorem Acts.leads_of_rest (hacts : Acts m limits dive seen t task t' left)
    (hstopped : seen.stopped = true → t.stopped = true)
    (hleads : ∃ n ∈ task.rest, n.Leads m leaf) :
    t'.Settles leaf ∨ ∃ task' ∈ left, task'.Leads m dive leaf := by
  obtain ⟨c, hc, hleads⟩ := hleads
  cases hacts with
  | finished => cases hc
  | halted stopped => exact .inl (.inl (hstopped stopped))
  | began =>
      rcases List.mem_cons.1 hc with rfl | hc
      · exact .inr ⟨_, rfl, .inl hleads⟩
      · exact .inr ⟨_, rfl, .inr ⟨c, hc, hleads⟩⟩
  | divided => exact .inr ⟨_, rfl, .inr ⟨c, List.mem_append_right _ hc, hleads⟩⟩
  | _ => exact .inr ⟨_, rfl, .inr ⟨c, hc, hleads⟩⟩

/-- If no limit is ever met, nobody comes to stop the search. -/
theorem Acts.calm (hacts : Acts m limits dive seen t task t' left)
    (hnever : ∀ number, limits.met number = false) (h : task.phase ≠ .stop) :
    t'.stopped = t.stopped ∧ ∀ task' ∈ left, task'.phase ≠ .stop := by
  cases hacts with
  | stopped => exact absurd rfl h
  | limited _ met =>
      rw [hnever] at met
      cases met
  | finished => exact ⟨rfl, nofun⟩
  | halted => exact ⟨rfl, nofun⟩
  | _ =>
      refine ⟨rfl, fun task' htask' => ?_⟩
      cases htask'
      nofun

/-! ## Teams -/

namespace Team

variable {c c' : Team} {choice : Choice}

/-- All that is left to do. -/
def work (c : Team) : List Task := c.jobs ++ c.tasks

/-- How many workers there are. -/
def size (c : Team) : Nat := c.idle + c.tasks.length

/-- What can happen in a team: a job is taken up, or a worker takes a step. -/
inductive Moves (m : Model) (limits : Limits) (dive : Nat → Checked (Option Draft))
    (c c' : Team) : Prop where
  | took (tally : c'.tally = c.tally) (work : c'.work.Perm c.work) (size : c'.size = c.size)
  | acted {seen : Glance} {task : Task} {left : Option Task} {others : List Task}
      (bound : c.tally.incumbent.bound ≤ seen.bound)
      (stopped : seen.stopped = true → c.tally.stopped = true)
      (acts : Acts m limits dive seen c.tally task c'.tally left)
      (before : c.work.Perm (task :: others)) (after : c'.work.Perm (left.toList ++ others))
      (size : c'.size = c.size)

/-- A team that has workers, with proper tasks. -/
structure Proper (m : Model) (c : Team) : Prop where
  work : ∀ task ∈ c.work, task.Proper m
  tally : c.tally.Proper m
  staffed : 0 < c.size

/-- A complete draft is accounted for, or it is yet to come. -/
def Leads (m : Model) (dive : Nat → Checked (Option Draft)) (leaf : Draft) (c : Team) : Prop :=
  c.tally.Settles leaf ∨ ∃ task ∈ c.work, task.Leads m dive leaf

/-- The search goes on, and nobody is about to stop it. -/
structure Calm (c : Team) : Prop where
  going : c.tally.stopped = false
  work : ∀ task ∈ c.work, task.phase ≠ .stop

theorem Moves.proper (hmoves : Moves m limits dive c c') (hm : m.WellFormed) (hs : m.Storable)
    (hdives : m.Dives dive) (h : c.Proper m) : c.tally.Follows m c'.tally ∧ c'.Proper m := by
  cases hmoves with
  | took tally work size =>
      rw [tally]
      refine ⟨.refl h.tally.sound, ⟨fun task htask => h.work task (work.mem_iff.1 htask), ?_, ?_⟩⟩
      · exact tally ▸ h.tally
      · exact size ▸ h.staffed
  | @acted seen task left others bound stopped acts before after size =>
      have hwork : ∀ other ∈ task :: others, other.Proper m :=
        fun other hother => h.work other (before.mem_iff.2 hother)
      obtain ⟨htask, hothers⟩ := List.forall_mem_cons.1 hwork
      obtain ⟨hfollows, htally⟩ := acts.follows htask h.tally
      refine ⟨hfollows, ⟨fun other hother => ?_, htally, size ▸ h.staffed⟩⟩
      rcases List.mem_append.1 (after.mem_iff.1 hother) with hleft | hother
      · rw [Option.mem_toList] at hleft
        cases hleft
        exact acts.proper hm hs hdives htask
      · exact hothers other hother

theorem Moves.leads (hmoves : Moves m limits dive c c') (hm : m.WellFormed) (hs : m.Storable)
    (hdives : m.Dives dive) (h : c.Proper m) (hleads : c.Leads m dive leaf) :
    c'.Leads m dive leaf := by
  obtain ⟨hfollows, _⟩ := hmoves.proper hm hs hdives h
  rcases hleads with hsettles | ⟨task, htask, hleads⟩
  · exact .inl (hsettles.mono hfollows)
  · cases hmoves with
    | took tally work size => exact .inr ⟨task, work.mem_iff.2 htask, hleads⟩
    | @acted seen acting left others bound stopped acts before after size =>
        rcases List.mem_cons.1 (before.mem_iff.1 htask) with rfl | hother
        · have hproper := h.work task htask
          have hkept : c'.tally.Settles leaf ∨ ∃ task' ∈ left, task'.Leads m dive leaf := by
            rcases hleads with hphase | hrest
            · exact acts.leads_of_phase hm bound stopped hproper hphase
            · exact acts.leads_of_rest stopped hrest
          rcases hkept with hsettles | ⟨task', hleft, hleads⟩
          · exact .inl hsettles
          · have hmem : task' ∈ left.toList ++ others :=
              List.mem_append_left _ (Option.mem_toList.2 hleft)
            exact .inr ⟨task', after.mem_iff.2 hmem, hleads⟩
        · exact .inr ⟨task, after.mem_iff.2 (List.mem_append_right _ hother), hleads⟩

theorem Moves.calm (hmoves : Moves m limits dive c c')
    (hnever : ∀ number, limits.met number = false) (h : c.Calm) : c'.Calm := by
  cases hmoves with
  | took tally work size =>
      exact ⟨tally ▸ h.going, fun task htask => h.work task (work.mem_iff.1 htask)⟩
  | @acted seen task left others bound stopped acts before after size =>
      obtain ⟨hsame, hleft⟩ :=
        acts.calm hnever (h.work task (before.mem_iff.2 List.mem_cons_self))
      refine ⟨hsame.trans h.going, fun other hother => ?_⟩
      rcases List.mem_append.1 (after.mem_iff.1 hother) with hmem | hother
      · exact hleft other (Option.mem_toList.1 hmem)
      · exact h.work other (before.mem_iff.2 (List.mem_cons_of_mem _ hother))

theorem moves_of_taken {number : Nat} (h : c.taken number = some c') :
    Moves m limits dive c c' := by
  obtain ⟨idle, job, jobs, hidle, hperm, rfl⟩ := taken_eq_some h
  refine .took rfl ?_ ?_
  · exact List.perm_middle.trans (hperm.symm.append_right c.tasks)
  · simp only [size, List.length_cons, hidle]
    omega

theorem moves_of_goOn (h : m.goOn limits dive choice c = .ok (some c')) :
    Moves m limits dive c c' := by
  obtain ⟨task, tasks, tally, left, hperm, hact, rfl⟩ := Model.goOn_eq_ok h
  have hbefore : c.work.Perm (task :: (c.jobs ++ tasks)) :=
    (hperm.append_left c.jobs).trans List.perm_middle
  refine .acted (Nat.le_max_right _ _) ?_ (Acts.of_act hact) hbefore ?_ ?_
  · intro hstopped
    exact (Bool.and_eq_true_iff.1 hstopped).2
  · exact List.perm_append_comm_assoc c.jobs left.toList tasks
  · have hlength := hperm.length_eq
    rw [List.length_cons] at hlength
    cases left with
    | none =>
        simp only [size, Option.toList, List.nil_append, Option.isSome_none, Bool.false_eq_true,
          if_false]
        omega
    | some task' =>
        simp only [size, Option.toList, List.cons_append, List.nil_append, List.length_cons,
          Option.isSome_some, if_true]
        omega

theorem moves_of_move (h : m.move limits dive choice c = .ok (some c')) :
    Moves m limits dive c c' := by
  unfold Model.move at h
  split at h
  · rename_i taken htaken
    split at h
    · cases h
      exact moves_of_taken htaken
    · exact moves_of_goOn h
  · exact moves_of_goOn h

theorem exists_draw {α : Type} {entries : List α} (h : entries ≠ []) (number : Nat) :
    ∃ a rest, draw entries number = some (a, rest) := by
  have hlt : number % entries.length < entries.length :=
    Nat.mod_lt _ (List.length_pos_iff.2 h)
  exact ⟨_, _, by rw [draw, List.getElem?_eq_getElem hlt]; rfl⟩

/-- A worker that is busy meets no fault. -/
theorem Proper.goOn_eq (h : c.Proper m) (hm : m.WellFormed) (hs : m.Storable)
    (hdives : m.Dives dive) (limits : Limits) (choice : Choice) :
    (c.tasks = [] ∧ m.goOn limits dive choice c = .ok none) ∨
      ∃ c', m.goOn limits dive choice c = .ok (some c') := by
  by_cases hbusy : c.tasks = []
  · exact .inl ⟨hbusy, by rw [Model.goOn, hbusy]; rfl⟩
  · obtain ⟨task, tasks, hdraw⟩ := exists_draw hbusy choice.worker
    have hmem : task ∈ c.tasks := (perm_of_draw hdraw).mem_iff.2 List.mem_cons_self
    obtain ⟨tally, left, hact⟩ := (h.work task (List.mem_append_right _ hmem)).exists_act
      hm hs hdives limits (c.tally.seenAs choice.earlier) c.tally
    refine .inr ?_
    rw [Model.goOn, hdraw]
    cases left <;> simp [hact]

/-- A team meets no fault, and it comes to an end only when nothing is left to do. -/
theorem Proper.move_eq (h : c.Proper m) (hm : m.WellFormed) (hs : m.Storable)
    (hdives : m.Dives dive) (limits : Limits) (choice : Choice) :
    (c.work = [] ∧ m.move limits dive choice c = .ok none) ∨
      ∃ c', m.move limits dive choice c = .ok (some c') := by
  unfold Model.move
  cases htaken : c.taken choice.job with
  | some taken =>
      by_cases htakes : choice.takes || c.tasks.isEmpty
      · exact .inr ⟨taken, if_pos htakes⟩
      · rcases h.goOn_eq hm hs hdives limits choice with ⟨hidle, _⟩ | ⟨c', hgoOn⟩
        · simp [hidle] at htakes
        · exact .inr ⟨c', by simpa only [if_neg htakes] using hgoOn⟩
  | none =>
      rcases h.goOn_eq hm hs hdives limits choice with ⟨hidle, hgoOn⟩ | hgoOn
      · -- all workers are idle, so that one of them would take up a job
        have hnone : c.jobs = [] := by
          by_contra hjobs
          obtain ⟨job, jobs, hdraw⟩ := exists_draw hjobs choice.job
          have hstaffed : 0 < c.idle := by simpa [size, hidle] using h.staffed
          obtain ⟨idle, hsize⟩ := Nat.exists_eq_succ_of_ne_zero (Nat.ne_of_gt hstaffed)
          simp [taken, hdraw, hsize] at htaken
        exact .inl ⟨List.append_eq_nil_iff.2 ⟨hnone, hidle⟩, hgoOn⟩
      · exact .inr hgoOn

/-- What the end of a team's work is worth, whatever happens. -/
structure Ends (m : Model) (limits : Limits) (dive : Nat → Checked (Option Draft)) (c : Team)
    (t : Tally) : Prop where
  follows : c.tally.Follows m t
  proper : t.Proper m
  settles : ∀ leaf, c.Leads m dive leaf → t.Settles leaf
  calm : (∀ number, limits.met number = false) → c.Calm → t.stopped = false

theorem Proper.ends_of_work_nil (h : c.Proper m) (hnone : c.work = []) :
    c.Ends m limits dive c.tally where
  follows := .refl h.tally.sound
  proper := h.tally
  settles leaf hleads := by
    rcases hleads with hsettles | ⟨task, htask, _⟩
    · exact hsettles
    · rw [hnone] at htask
      cases htask
  calm _ hcalm := hcalm.going

/-- A team finishes its work, and nothing is lost on the way. -/
theorem Proper.work_eq (h : c.Proper m) (hm : m.WellFormed) (hs : m.Storable)
    (hdives : m.Dives dive) (limits : Limits) (choices : Nat → Choice) (turn : Nat) :
    ∃ t, m.work limits dive choices turn c = .ok t ∧ c.Ends m limits dive t := by
  fun_induction Model.work m limits dive choices turn c with
  | case1 turn c fault hmove =>
      rcases h.move_eq hm hs hdives limits (choices turn) with ⟨_, hok⟩ | ⟨_, hok⟩
      · cases hmove.symm.trans hok
      · cases hmove.symm.trans hok
  | case2 turn c hmove =>
      rcases h.move_eq hm hs hdives limits (choices turn) with ⟨hnone, _⟩ | ⟨_, hok⟩
      · exact ⟨c.tally, rfl, h.ends_of_work_nil hnone⟩
      · cases hmove.symm.trans hok
  | case3 turn c c' hmove ih =>
      have hmoves := moves_of_move hmove
      obtain ⟨hfollows, hproper⟩ := hmoves.proper hm hs hdives h
      obtain ⟨t, hwork, hends⟩ := ih hproper
      exact ⟨t, hwork,
        { follows := hfollows.trans hends.follows
          proper := hends.proper
          settles := fun leaf hleads => hends.settles leaf (hmoves.leads hm hs hdives h hleads)
          calm := fun hnever hcalm => hends.calm hnever (hmoves.calm hnever hcalm) }⟩

theorem work_ofJobs (t : Tally) (jobs : List Task) (workers : Nat) :
    (ofJobs t jobs workers).work = jobs := List.append_nil jobs

theorem proper_ofJobs {jobs : List Task} {workers : Nat} (ht : t.Proper m)
    (hjobs : ∀ job ∈ jobs, job.Proper m) (hworkers : 0 < workers) :
    (ofJobs t jobs workers).Proper m :=
  ⟨(work_ofJobs t jobs workers).symm ▸ hjobs, ht, hworkers⟩

theorem calm_ofJobs {jobs : List Task} {workers : Nat} (ht : t.stopped = false)
    (hjobs : ∀ job ∈ jobs, job.phase ≠ .stop) : (ofJobs t jobs workers).Calm :=
  ⟨ht, (work_ofJobs t jobs workers).symm ▸ hjobs⟩

theorem leads_ofJobs {jobs : List Task} {workers : Nat} {job : Task} (hmem : job ∈ jobs)
    (hleads : job.Leads m dive leaf) : (ofJobs t jobs workers).Leads m dive leaf :=
  .inr ⟨job, (work_ofJobs t jobs workers).symm ▸ hmem, hleads⟩

end Team

/-! ## Searches -/

namespace Model

variable {σ : Type}

theorem dives_diveAt (hm : m.WellFormed) (hs : m.Storable) (hsome : ∃ s, m.Lawful s)
    (g : Generator σ) (o : Options) : m.Dives (m.diveAt g o) := by
  intro index
  obtain ⟨d, _, _, hdive, hdone⟩ := diveAt_eq hm hs hsome g o index
  exact ⟨d, hdive, hdone, runs_of_diveAt hdive⟩

theorem submit_proper (hm : m.WellFormed) (hs : m.Storable) {d : Draft} (hd : d.Finished m)
    (hruns : m.Runs d.schedule) (ht : t.Proper m) : ∃ t', m.submit d t = .ok t' ∧
      t.Follows m t' ∧ t'.Proper m ∧ t'.incumbent.bound ≤ d.messages.size ∧
      t'.stopped = t.stopped := by
  obtain ⟨t', hsubmit, hfollows, hbound, hstopped⟩ := submit_eq hm hs hd ht.sound
  exact ⟨t', hsubmit, hfollows, ⟨hfollows.sound, runs_of_submit hsubmit ht.runs hruns⟩, hbound,
    hstopped⟩

/-- The dives are made by all workers together, and nothing ends them early. -/
theorem headStartTogether_eq (hm : m.WellFormed) (hs : m.Storable) (hsome : ∃ s, m.Lawful s)
    (g : Generator σ) (o : Options) (course : Course) {workers : Nat} (hworkers : 0 < workers) :
    ∃ t, m.headStartTogether g o course workers = .ok t ∧ t.Proper m ∧ t.stopped = false ∧
      m.HeadStart g o t.incumbent.bound := by
  obtain ⟨result, hflood, hdone, hiff⟩ := flood_eq hm hs
  obtain ⟨d, rfl⟩ := Option.isSome_iff_exists.1 (hiff.2 hsome)
  obtain ⟨t, hsubmit, _, ht, hbound, hgoing⟩ := submit_proper hm hs (hdone d rfl)
    (runs_of_flood hflood) (t := .fresh) ⟨Incumbent.fresh_sound, Incumbent.fresh_runs⟩
  have hdives := dives_diveAt hm hs hsome g o
  have hproper : ∀ job ∈ (List.range o.dives).map Task.ofDive, job.Proper m := by
    refine List.forall_mem_map.2 fun index _ => ⟨trivial, nofun⟩
  have hcalm : ∀ job ∈ (List.range o.dives).map Task.ofDive, job.phase ≠ .stop :=
    List.forall_mem_map.2 fun index _ => nofun
  obtain ⟨t', hwork, hends⟩ := (Team.proper_ofJobs ht hproper hworkers).work_eq
    hm hs hdives .free course.dives 0
  have hstill : t'.stopped = false :=
    hends.calm Limits.met_free (Team.calm_ofJobs hgoing hcalm)
  refine ⟨t', by simp [headStartTogether, hflood, hsubmit, hwork], hends.proper, hstill, ?_⟩
  exact
    { flood := ⟨d, hflood, Nat.le_trans hends.follows.bound_le hbound, (hdone d rfl).lawful⟩
      dives := by
        intro index hindex
        obtain ⟨leaf, x, hdive, hat, _⟩ := diveAt_eq hm hs hsome g o index
        have hmem : Task.ofDive index ∈ (List.range o.dives).map Task.ofDive :=
          List.mem_map_of_mem (List.mem_range.2 hindex)
        rcases hends.settles leaf (Team.leads_ofJobs hmem (.inl hat)) with hend | hle
        · rw [hstill] at hend
          cases hend
        · exact ⟨leaf, x, hdive, hle⟩ }

/-- Nodes that are opened one after another leave nothing out. -/
theorem frontier_eq (hm : m.WellFormed) (hs : m.Storable) (limits : Limits) (size : Nat)
    (pending : List SearchNode) (t : Tally) (hopen : ∀ n ∈ pending, n.Open m) (ht : t.Proper m) :
    ∃ nodes t', m.frontier limits size pending t = .ok (nodes, t') ∧ t.Follows m t' ∧
      t'.Proper m ∧ (∀ n ∈ nodes, n.Open m) ∧
      (∀ leaf, ∀ n ∈ pending, n.Leads m leaf →
        t'.Settles leaf ∨ ∃ c ∈ nodes, c.Leads m leaf) ∧
      ((∀ number, limits.met number = false) → t'.stopped = t.stopped) := by
  fun_induction Model.frontier m limits size pending t with
  | case1 t => exact ⟨[], t, rfl, .refl ht.sound, ht, nofun, fun _ => nofun, fun _ => rfl⟩
  | case2 t n rest _ =>
      exact ⟨n :: rest, t, rfl, .refl ht.sound, ht, hopen,
        fun _ c hc hleads => .inr ⟨c, hc, hleads⟩, fun _ => rfl⟩
  | case3 t n rest _ fault hvisit =>
      have hn := hopen n List.mem_cons_self
      obtain ⟨nodes, t', hok, _⟩ := visit_eq hm hs limits hn.sound ht.sound
      cases hvisit.symm.trans hok
  | case4 t n rest hmore nodes t' hvisit ih =>
      obtain ⟨hn, hrest⟩ := List.forall_mem_cons.1 hopen
      obtain ⟨_, _, hok, hfollows, hnodes, hstopped, haccounts⟩ :=
        visit_eq hm hs limits hn.sound ht.sound
      cases hvisit.symm.trans hok
      have hwithin := within_of_visit hvisit hm hs.horizon_lt hn.within
      have hruns := runs_of_visit hvisit hm hs.horizon_lt hn.within ht.runs
      have hopened : ∀ c ∈ rest ++ nodes, c.Open m :=
        List.forall_mem_append.2 ⟨hrest, fun c hc => ⟨hnodes c hc, hwithin c hc⟩⟩
      obtain ⟨last, t'', hfrontier, hlater, hproper, hlast, hsettles, hcalm⟩ :=
        ih hopened ⟨hfollows.sound, hruns⟩
      refine ⟨last, t'', hfrontier, hfollows.trans hlater, hproper, hlast,
        fun leaf c hc hleads => ?_, fun hnever => ?_⟩
      · rcases List.mem_cons.1 hc with rfl | hc
        · by_cases hend : t'.stopped = true
          · exact .inl (.inl (hlater.stopped hend))
          · rcases haccounts (Bool.not_eq_true _ ▸ hend) leaf hleads with
              hle | ⟨child, hmem, hchild⟩
            · exact .inl (.inr (Nat.le_trans hlater.bound_le hle))
            · exact hsettles leaf child (List.mem_append_right _ hmem) hchild
        · exact hsettles leaf c (List.mem_append_left _ hc) hleads
      · rw [hcalm hnever]
        have hsame : t'.stopped = true ↔ t.stopped = true := by
          rw [hstopped, Tally.pastLimit, hnever, Bool.or_false]
        exact Bool.eq_iff_iff.2 hsame

/-- Whatever happens in it, a search by several workers comes to what the search of a
single one comes to. -/
theorem searchTogether_eq (hm : m.WellFormed) (hs : m.Storable) (hsome : ∃ s, m.Lawful s)
    (g : Generator σ) (o : Options) (course : Course) {workers : Nat} (hworkers : 0 < workers) :
    ∃ t, m.searchTogether g o course workers = .ok t ∧ m.Searched g o t ∧
      t.incumbent.Runs m := by
  obtain ⟨t, hhead, ht, hgoing, hstart⟩ :=
    headStartTogether_eq hm hs hsome g o course hworkers
  obtain ⟨blank, outlook, roots, t', hblank, henter, hfollow, hfollows, hstill, hroots,
    haccounts⟩ := roots_eq hm hs ht.sound
  have hruns : outlook.Runs m := by
    rw [Draft.eq_start_of_blankDraft hblank] at henter
    exact Outlook.runs_of_enter .refl henter
  have hopen : ∀ n ∈ roots, n.Open m :=
    fun n hn => ⟨hroots n hn, within_of_follow hfollow hruns n hn⟩
  obtain ⟨subtrees, t'', hfrontier, hlater, hproper, hsubtrees, hsettles, hcalm⟩ :=
    frontier_eq hm hs (o.limits course.clock) (max o.frontier 1) roots t' hopen
      ⟨hfollows.sound, runs_of_follow hfollow hruns ht.runs⟩
  have hjobs : ∀ job ∈ subtrees.map Task.ofSubtree, job.Proper m :=
    List.forall_mem_map.2 fun n hn => Task.proper_ofSubtree (hsubtrees n hn)
  obtain ⟨last, hwork, hends⟩ := (Team.proper_ofJobs hproper hjobs hworkers).work_eq
    hm hs (dives_diveAt hm hs hsome g o) (o.limits course.clock) course.subtrees 0
  have hmore := hlater.trans hends.follows
  refine ⟨last, by simp [searchTogether, hhead, hblank, henter, hfollow, hfrontier, hwork],
    ?_, hends.proper.runs⟩
  exact
    { sound := hends.proper.sound
      headStart := hstart.mono (Nat.le_trans hmore.bound_le hfollows.bound_le)
      optimal := by
        intro hend s hlaw
        obtain ⟨leaf, hcost, haccounts⟩ := haccounts s hlaw
        have hsettled : last.Settles leaf := by
          rcases haccounts with hle | ⟨n, hn, hleads⟩
          · exact .inr (Nat.le_trans hmore.bound_le hle)
          · rcases hsettles leaf n hn hleads with hsettles | ⟨c, hc, hleads⟩
            · exact hsettles.mono hends.follows
            · have hjob : Task.ofSubtree c ∈ subtrees.map Task.ofSubtree := List.mem_map_of_mem hc
              exact hends.settles leaf (Team.leads_ofJobs hjob (Task.leads_ofSubtree hleads))
        rcases hsettled with hstopped | hle
        · rw [hend] at hstopped
          cases hstopped
        · exact Nat.le_trans hle hcost
      unlimited := by
        intro hnodes hmillis
        have hnever : ∀ number, (o.limits course.clock).met number = false := by
          rw [Options.limits_eq_free hnodes hmillis]
          exact Limits.met_free
        refine hends.calm hnever (Team.calm_ofJobs ?_ ?_)
        · rw [hcalm hnever, hstill, hgoing]
        · exact List.forall_mem_map.2 fun n _ => nofun }

/-- How workers answer, whatever happens while they search: with a reason if there is no
lawful schedule, and else with a lawful one, unless they cannot be started. -/
theorem solveTogether_eq (hm : m.WellFormed) (hs : m.Storable) (g : Generator σ) (o : Options)
    (course : Course) :
    (¬ (∃ s, m.Lawful s) ∧ ∃ reason, m.solveTogether g o course = .ok (.infeasible reason)) ∨
      (∃ why, course.start o.workers = .error why ∧
        m.solveTogether g o course = .error (o.refusal why)) ∨
      ∃ t found, m.Searched g o t ∧ m.solveTogether g o course = .ok (.feasible found) ∧
        m.Finds found.schedule ∧ found.cost = found.schedule.cost ∧
        found.cost = t.incumbent.bound ∧ (found.provenOptimal = true ↔ t.stopped = false) := by
  obtain ⟨obstacle, hobstacle, hiff, _⟩ := obstacle_eq hm hs
  cases obstacle with
  | some reason =>
      have hnot : ¬ ∃ s, m.Lawful s := by
        intro hsome
        cases hiff.2 hsome
      exact .inl ⟨hnot, reason, by simp [solveTogether, hobstacle]⟩
  | none =>
      refine .inr ?_
      cases hstart : course.start o.workers with
      | error why =>
          refine .inl ⟨why, rfl, ?_⟩
          simp [solveTogether, hobstacle, hstart]
      | ok workers =>
          obtain ⟨t, hsearch, hsearched, hruns⟩ :=
            searchTogether_eq hm hs (hiff.1 rfl) g o course workers.property
          obtain ⟨found, hreport, hshown, hlaw, hfound⟩ := hsearched.report_eq hs course.clock
          obtain ⟨s, hbest, rfl⟩ := Option.map_eq_some_iff.1 hshown
          refine .inr ⟨t, _, hsearched, ?_, ⟨hlaw, hruns s hbest⟩, hfound⟩
          simp [solveTogether, hobstacle, hstart, hsearch, hreport]

/-- Without limits no lawful schedule has fewer messages than the answer. -/
theorem cost_le_of_unlimited (hm : m.WellFormed) (hs : m.Storable) {g : Generator σ}
    {o : Options} (hnodes : o.maxNodes = none) (htime : o.maxMilliseconds = none)
    {course : Course} {found : Solution}
    (hsolve : m.solveTogether g o course = .ok (.feasible found)) :
    m.Lawful found.schedule ∧ found.cost = found.schedule.cost ∧
      ∀ s, m.Lawful s → found.cost ≤ s.cost := by
  rcases solveTogether_eq hm hs g o course with
    ⟨_, reason, hother⟩ | ⟨why, _, hother⟩ | ⟨t, _, hsearched, hother, hfinds, hcost, hbound, _⟩
  · cases hsolve.symm.trans hother
  · cases hsolve.symm.trans hother
  · cases hsolve.symm.trans hother
    refine ⟨hfinds.lawful, hcost, fun s hlaw => ?_⟩
    rw [hbound]
    exact hsearched.optimal (hsearched.unlimited hnodes htime) s hlaw

end Model

/-- Searches without limits come to as many messages, whatever their options and their
generators, however many workers share them and whatever happens. -/
theorem workers_agree {p : Problem} {bank : RuleBank} {m : Model} {σ τ : Type}
    (h : p.model bank = .ok m) {g : Generator σ} {g' : Generator τ} {o o' : Options}
    (hfree : o.maxNodes = none ∧ o.maxMilliseconds = none)
    (hfree' : o'.maxNodes = none ∧ o'.maxMilliseconds = none) {course course' : Course}
    {found found' : Solution} (hsolve : m.solveTogether g o course = .ok (.feasible found))
    (hsolve' : m.solveTogether g' o' course' = .ok (.feasible found')) :
    found.cost = found'.cost := by
  have hm := wellFormed_of_model h
  have hs := storable_of_model h
  obtain ⟨hlaw, hcost, hleast⟩ := Model.cost_le_of_unlimited hm hs hfree.1 hfree.2 hsolve
  obtain ⟨hlaw', hcost', hleast'⟩ := Model.cost_le_of_unlimited hm hs hfree'.1 hfree'.2 hsolve'
  have hle := hleast found'.schedule hlaw'
  have hle' := hleast' found.schedule hlaw
  omega

end ChainPropagation
