import ChainPropagation.Proofs.Counting

/-!
# Larger node limits

Two searches that differ only in how many nodes they may explore make the same visits
until the smaller limit is met (`Model.search_eq_searchFirst`).  There one of them shows
its stage, with the next node counted, and the other one goes on from that stage.

Going on can only add to the counters and take the bound down, as each visit does
(`Tally.LeadsTo`); and the node that was counted is the first one that is visited then.
So what the smaller limit shows is never ahead.  If nothing was pending when the smaller
limit would have been met, there is nothing to go on with.

## Main result

* `larger_limit_no_worse` — the answers under two node limits.
-/

namespace ChainPropagation

variable {σ : Type} {g : Generator σ} {m : Model} {n : SearchNode} {nodes : List SearchNode}
  {t t' t'' last : Tally}
  {limits : Limits} {o : Options} {clock : Nat → Nat} {limit size : Nat} {s : Stage}

/-! ## Going on -/

/-- A tally that has come further: no counter is smaller, and the bound is not higher. -/
structure Tally.LeadsTo (t t' : Tally) : Prop where
  bound_le : t'.incumbent.bound ≤ t.incumbent.bound
  explored_le : t.explored ≤ t'.explored
  cutByBound_le : t.cutByBound ≤ t'.cutByBound
  cutByReach_le : t.cutByReach ≤ t'.cutByReach
  accepted_le : t.accepted ≤ t'.accepted
  improvements_le : t.incumbent.improvements ≤ t'.incumbent.improvements

namespace Tally.LeadsTo

theorem refl (t : Tally) : t.LeadsTo t :=
  ⟨Nat.le_refl _, Nat.le_refl _, Nat.le_refl _, Nat.le_refl _, Nat.le_refl _, Nat.le_refl _⟩

theorem trans (h : t.LeadsTo t') (h' : t'.LeadsTo t'') : t.LeadsTo t'' :=
  { bound_le := Nat.le_trans h'.bound_le h.bound_le
    explored_le := Nat.le_trans h.explored_le h'.explored_le
    cutByBound_le := Nat.le_trans h.cutByBound_le h'.cutByBound_le
    cutByReach_le := Nat.le_trans h.cutByReach_le h'.cutByReach_le
    accepted_le := Nat.le_trans h.accepted_le h'.accepted_le
    improvements_le := Nat.le_trans h.improvements_le h'.improvements_le }

/-- To count a node comes before all else that a visit does, and may be all. -/
theorem counted (t : Tally) (stopped : Bool) :
    t.LeadsTo { t with explored := t.explored + 1, stopped } :=
  { refl t with explored_le := Nat.le_succ _ }

theorem of_visited (h : Visited m n t nodes t') (stopped : Bool) :
    Tally.LeadsTo { t with explored := t.explored + 1, stopped } t' := by
  have hsame : Tally.LeadsTo { t with explored := t.explored + 1, stopped }
      { t with explored := t.explored + 1, stopped } := refl _
  cases h with
  | halted => exact { hsame with }
  | bounded => exact { hsame with cutByBound_le := Nat.le_succ _ }
  | closed => exact { hsame with }
  | unreachable => exact { hsame with cutByReach_le := Nat.le_succ _ }
  | improved _ better =>
      exact
        { hsame with
          bound_le := Nat.le_of_lt better
          accepted_le := Nat.le_succ _
          improvements_le := Nat.le_succ _ }
  | divided _ => exact { hsame with }

theorem of_visit (hvisit : m.visit limits n t = .ok (nodes, t')) : t.LeadsTo t' :=
  (counted t false).trans (of_visited (.of_visit hvisit) false)

theorem of_visitAll {deep : Bool} {pending : List SearchNode}
    (hall : m.visitAll limits size deep pending t = .ok last) : t.LeadsTo last := by
  obtain ⟨_, hlast⟩ := Model.visitAll_induct (fun _ next => t.LeadsTo next)
    (fun _ _ _ _ _ h hvisit _ => h.trans (of_visit hvisit)) hall (refl t)
  exact hlast

/-- Whoever goes on from a stage comes at least to what is shown at it. -/
theorem of_resume (hrest : m.resume limits size s = .ok last)
    (hgoing : s.tally.stopped = false) : s.cut.LeadsTo last := by
  by_cases hdone : s.pending = []
  · rw [Model.resume_of_done hdone] at hrest
    cases hrest
    rw [Stage.cut_of_done hdone]
    exact refl _
  · rw [Stage.cut_of_pending hdone]
    obtain ⟨n, rest, hpending⟩ := List.exists_cons_of_ne_nil hdone
    rw [Model.resume, hpending, Model.visitAll_cons hgoing] at hrest
    obtain ⟨⟨nodes, next⟩, hvisit, hrest⟩ := Model.solving_bind_eq_ok.1 hrest
    exact (of_visited (.of_visit hvisit) true).trans (of_visitAll hrest)

end Tally.LeadsTo

/-! ## Two limits -/

/-- A node limit, if there is one, is not met before. -/
theorem Options.limits_allow (htime : o.maxMilliseconds = none)
    (hnodes : ∀ most, o.maxNodes = some most → limit ≤ most) :
    (o.limits clock).Allow limit := by
  intro t hle
  have hwithin : o.maxNodes.any (· < t.explored) = false := by
    rw [Option.any_eq_false]
    intro most hmost
    have hlimit := hnodes most hmost
    exact decide_eq_false (by omega)
  simp [Tally.pastLimit, Limits.met, Options.limits, hwithin, htime]

namespace Model

/-- A search goes on from the stage at which a smaller limit is met. -/
theorem exists_stage_of_searches {more : Option Nat} (hnodes : o.maxNodes = some limit)
    (htime : o.maxMilliseconds = none) (hmore : ∀ most, more = some most → limit ≤ most)
    {clock' : Nat → Nat} (hsearch : m.search g o clock = .ok t)
    (hfurther : m.search g { o with maxNodes := more } clock' = .ok last) :
    ∃ s, s.After limit ∧ t = s.cut ∧
      m.resume (Options.limits { o with maxNodes := more } clock') (max o.frontier 1) s =
        .ok last := by
  obtain ⟨s, hfirst, hafter, hcut, _⟩ := exists_stage_of_search hnodes htime hsearch clock'
  have hallow : (Options.limits { o with maxNodes := more } clock').Allow limit :=
    Options.limits_allow htime hmore
  rw [search_eq_searchFirst hallow, searchFirst_withNodes, hfirst] at hfurther
  exact ⟨s, hafter, hcut, hfurther⟩

/-- An answer shows the tally of its search, and has as many messages as the bound says. -/
theorem exists_tally_of_solve (hm : m.WellFormed) (hs : m.Storable) (hclear : m.obstacle = .ok none)
    (g : Generator σ) (o : Options) (clock : Nat → Nat) :
    ∃ found t, m.solve g o clock = .ok (.feasible found) ∧ m.search g o clock = .ok t ∧
      t.solution? clock = some found ∧ found.schedule.messages.length = t.incumbent.bound := by
  obtain ⟨obstacle, hobstacle, hsome, _⟩ := obstacle_eq hm hs
  rw [hclear] at hobstacle
  cases hobstacle
  obtain ⟨found, hsolve⟩ := exists_feasible hm hs hclear g o clock
  obtain ⟨t, hsearch, hshown⟩ := search_of_solve hsolve
  obtain ⟨searched, hsame, hsearched⟩ := search_eq hm hs (hsome.1 rfl) g o clock
  rw [hsearch] at hsame
  cases hsame
  refine ⟨found, t, hsolve, hsearch, hshown, ?_⟩
  obtain ⟨best, hbest, rfl⟩ := Option.map_eq_some_iff.1 hshown
  exact (hsearched.sound.lawful best hbest).2

end Model

/-- The answers for a built model that has no obstacle under a node limit and under a
larger one, or none, with all else alike and no other limit.  With the larger limit the
answer has no more messages, and its search has explored, accepted and improved no less.
An answer that is called optimal under the smaller limit is the answer under the larger
one, but for the time that has passed. -/
theorem larger_limit_no_worse {p : Problem} {bank : RuleBank} {m : Model}
    (h : p.model bank = .ok m) (hclear : m.obstacle = .ok none) {σ : Type} (g : Generator σ)
    {o : Options} {limit : Nat}
    (hnodes : o.maxNodes = some limit) (htime : o.maxMilliseconds = none) {more : Option Nat}
    (hmore : ∀ most, more = some most → limit ≤ most) (clock clock' : Nat → Nat) :
    ∃ found further, m.solve g o clock = .ok (.feasible found) ∧
      m.solve g { o with maxNodes := more } clock' = .ok (.feasible further) ∧
      further.schedule.messages.length ≤ found.schedule.messages.length ∧
      found.effort.explored ≤ further.effort.explored ∧
      found.effort.accepted ≤ further.effort.accepted ∧
      found.effort.improvements ≤ further.effort.improvements ∧
      (found.provenOptimal = true → found.untimed = further.untimed) := by
  have hm := wellFormed_of_model h
  have hs := storable_of_model h
  obtain ⟨found, t, hsolve, hsearch, hshown, hcost⟩ :=
    Model.exists_tally_of_solve hm hs hclear g o clock
  obtain ⟨further, last, hsolve', hfurther, hlast, hcost'⟩ :=
    Model.exists_tally_of_solve hm hs hclear g { o with maxNodes := more } clock'
  obtain ⟨s, hafter, rfl, hrest⟩ :=
    Model.exists_stage_of_searches hnodes htime hmore hsearch hfurther
  have hleads := Tally.LeadsTo.of_resume hrest hafter.going
  have hoptimal : found.provenOptimal = true → found.untimed = further.untimed := by
    intro hproven
    have hgoing : s.cut.stopped = false := (Tally.shown_of_solution? hshown).2.1 hproven
    -- a limit that was not met stopped nothing
    have hdone : s.pending = [] := by
      by_contra hpending
      rw [Stage.cut_of_pending hpending] at hgoing
      cases hgoing
    rw [Model.resume_of_done hdone, ← Stage.cut_of_done hdone] at hrest
    cases hrest
    exact Tally.untimed_eq_of_solution? hshown hlast
  refine ⟨found, further, hsolve, hsolve', ?_, ?_, ?_, ?_, hoptimal⟩
  · rw [hcost, hcost']
    exact hleads.bound_le
  all_goals
    obtain ⟨_, _, rfl⟩ := Option.map_eq_some_iff.1 hshown
    obtain ⟨_, _, rfl⟩ := Option.map_eq_some_iff.1 hlast
  · exact hleads.explored_le
  · exact hleads.accepted_le
  · exact hleads.improvements_le

/-- The meeting, with five nodes, with nine, and without a limit. -/
theorem meetingModel_no_worse :
    meeting.model .standard = .ok meetingModel ∧ meetingModel.obstacle = .ok none ∧
      (∃ found further,
        meetingModel.solve Xoshiro.generator { Options.standard with maxNodes := some 5 }
            (fun _ => 0) =
          .ok (.feasible found) ∧
        meetingModel.solve Xoshiro.generator { Options.standard with maxNodes := some 9 }
            (fun _ => 0) =
          .ok (.feasible further) ∧
        found.effort.explored ≤ further.effort.explored) ∧
      ∃ found further,
        meetingModel.solve Xoshiro.generator { Options.standard with maxNodes := some 5 }
            (fun _ => 0) =
          .ok (.feasible found) ∧
        meetingModel.solve Xoshiro.generator { Options.standard with maxNodes := none }
            (fun _ => 0) =
          .ok (.feasible further) ∧
        further.schedule.messages.length ≤ found.schedule.messages.length := by
  have hbuilt : meeting.model .standard = .ok meetingModel := rfl
  have hclear : meetingModel.obstacle = .ok none := rfl
  have hnine : ∀ most, some 9 = some most → 5 ≤ most := by
    intro most heq
    cases heq
    decide
  have hunlimited : ∀ most, none = some most → 5 ≤ most := nofun
  obtain ⟨found, further, hfound, hfurther, _, hexplored, _⟩ :=
    larger_limit_no_worse hbuilt hclear Xoshiro.generator
      (o := { Options.standard with maxNodes := some 5 }) rfl rfl hnine (fun _ => 0) (fun _ => 0)
  obtain ⟨found', further', hfound', hfurther', hcost, _⟩ :=
    larger_limit_no_worse hbuilt hclear Xoshiro.generator
      (o := { Options.standard with maxNodes := some 5 }) rfl rfl hunlimited (fun _ => 0)
      (fun _ => 0)
  exact ⟨hbuilt, hclear, ⟨found, further, hfound, hfurther, hexplored⟩,
    found', further', hfound', hfurther', hcost⟩

end ChainPropagation
