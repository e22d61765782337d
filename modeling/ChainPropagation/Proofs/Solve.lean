import ChainPropagation.Proofs.Dive
import ChainPropagation.Proofs.Search
import ChainPropagation.Solve

/-!
# The solvers

On a well-formed model both solvers answer (`solveByFlooding_eq`, `solve_eq`):
every draft that they come to is lawful, so no rule of any bank objects to it.
The bound only goes down from the flood over the dives to the end of the search,
and a search that was not stopped has been through the whole tree, which loses
no minimum.

## Main results

* `solve_never_fails` — the solvers answer, and the answer is at least as good
  as the flood and as every dive.
* `solve_optimal` — what is called optimal has the fewest messages of all valid
  schedules, and without limits every answer is.
-/

namespace ChainPropagation

theorem Options.limits_eq_free {o : Options} {clock : Nat → Nat} (hnodes : o.maxNodes = none)
    (htime : o.maxMilliseconds = none) : o.limits clock = .free := by
  simp [Options.limits, Limits.free, hnodes, htime]

namespace Model

variable {m : Model} {σ : Type}

/-! ## The head start -/

theorem diveAt_eq (hm : m.WellFormed) (hs : m.Storable) (hsome : ∃ s, m.Lawful s)
    (g : Generator σ) (o : Options) (index : Nat) :
    ∃ d x, m.dive g.next o.coin (g.ofSeed (UInt64.ofNat (o.seed + index))) = .ok (some d, x) ∧
      m.diveAt g o index = .ok (some d) ∧ d.Finished m := by
  obtain ⟨result, x, hdive, hdone, hiff⟩ :=
    dive_eq hm hs g.next o.coin (g.ofSeed (UInt64.ofNat (o.seed + index)))
  obtain ⟨d, rfl⟩ := Option.isSome_iff_exists.1 (hiff.2 hsome)
  refine ⟨d, x, hdive, ?_, hdone d rfl⟩
  rw [diveAt, hdive]
  rfl

theorem diveOnce_eq (hm : m.WellFormed) (hs : m.Storable) (hsome : ∃ s, m.Lawful s)
    (g : Generator σ) (o : Options) (index : Nat) {t : Tally} (ht : t.incumbent.Sound m) :
    ∃ d x t', m.dive g.next o.coin (g.ofSeed (UInt64.ofNat (o.seed + index))) =
        .ok (some d, x) ∧
      m.diveOnce g o t index = .ok t' ∧ t.Follows m t' ∧ t'.stopped = t.stopped ∧
      t'.incumbent.bound ≤ d.messages.size := by
  obtain ⟨d, x, hdive, hat, hdone⟩ := diveAt_eq hm hs hsome g o index
  obtain ⟨t', hsubmit, hfollows, hbound, hstopped⟩ := submit_eq hm hs hdone ht
  refine ⟨d, x, t', hdive, ?_, hfollows, hstopped, hbound⟩
  simp [diveOnce, hat, hsubmit]

/-- The dives of a head start, from one index on. -/
theorem diveOften_eq (hm : m.WellFormed) (hs : m.Storable) (hsome : ∃ s, m.Lawful s)
    (g : Generator σ) (o : Options) (left : Nat) :
    ∀ (index : Nat) (t : Tally), t.incumbent.Sound m →
      ∃ t', m.diveOften g o left index t = .ok t' ∧ t.Follows m t' ∧ t'.stopped = t.stopped ∧
        ∀ i < left, ∃ d x,
          m.dive g.next o.coin (g.ofSeed (UInt64.ofNat (o.seed + (index + i)))) =
            .ok (some d, x) ∧ t'.incumbent.bound ≤ d.messages.size := by
  induction left with
  | zero =>
      intro index t ht
      exact ⟨t, rfl, .refl ht, rfl, fun i hi => by omega⟩
  | succ left ih =>
      intro index t ht
      obtain ⟨d, x, t', hdive, honce, hfollows, hstopped, hbound⟩ :=
        diveOnce_eq hm hs hsome g o index ht
      obtain ⟨t'', hrest, hmore, hstill, hdives⟩ := ih (index + 1) t' hfollows.sound
      refine ⟨t'', ?_, hfollows.trans hmore, hstill.trans hstopped, fun i hi => ?_⟩
      · rw [diveOften, honce]
        exact hrest
      · cases i with
        | zero => exact ⟨d, x, hdive, Nat.le_trans hmore.bound_le hbound⟩
        | succ i =>
            obtain ⟨d', x', hdive', hbound'⟩ := hdives i (by omega)
            exact ⟨d', x', by rw [← hdive', Nat.add_right_comm index 1 i, Nat.add_assoc], hbound'⟩

/-- A bound that neither the flood nor any dive of the head start beats. -/
structure HeadStart (m : Model) (g : Generator σ) (o : Options) (bound : Nat) : Prop where
  flood : ∃ d, m.flood = .ok (some d) ∧ bound ≤ d.messages.size ∧ m.Lawful d.schedule
  dives : ∀ index < o.dives, ∃ d x,
    m.dive g.next o.coin (g.ofSeed (UInt64.ofNat (o.seed + index))) = .ok (some d, x) ∧
      bound ≤ d.messages.size

theorem HeadStart.mono {g : Generator σ} {o : Options} {bound less : Nat}
    (h : m.HeadStart g o bound) (hle : less ≤ bound) : m.HeadStart g o less := by
  obtain ⟨d, hflood, hbound, hlaw⟩ := h.flood
  exact
    { flood := ⟨d, hflood, Nat.le_trans hle hbound, hlaw⟩
      dives := by
        intro index hindex
        obtain ⟨d, x, hdive, hbound⟩ := h.dives index hindex
        exact ⟨d, x, hdive, Nat.le_trans hle hbound⟩ }

theorem headStart_eq (hm : m.WellFormed) (hs : m.Storable) (hsome : ∃ s, m.Lawful s)
    (g : Generator σ) (o : Options) : ∃ t, m.headStart g o = .ok t ∧ t.incumbent.Sound m ∧
      t.stopped = false ∧ m.HeadStart g o t.incumbent.bound := by
  obtain ⟨result, hflood, hdone, hiff⟩ := flood_eq hm hs
  obtain ⟨d, rfl⟩ := Option.isSome_iff_exists.1 (hiff.2 hsome)
  obtain ⟨t, hsubmit, hfollows, hbound, hstopped⟩ := submit_eq hm hs (hdone d rfl)
    (t := .fresh) Incumbent.fresh_sound
  obtain ⟨t', hdives, hmore, hstill, hall⟩ :=
    diveOften_eq hm hs hsome g o o.dives 0 t hfollows.sound
  have hstart : m.HeadStart g o t'.incumbent.bound :=
    { flood := ⟨d, hflood, Nat.le_trans hmore.bound_le hbound, (hdone d rfl).lawful⟩
      dives := by
        intro index hindex
        have hdive := hall index hindex
        rwa [Nat.zero_add] at hdive }
  refine ⟨t', ?_, hmore.sound, hstill.trans hstopped, hstart⟩
  simp [headStart, hflood, hsubmit, hdives]

/-! ## The search -/

/-- What a search comes to. -/
structure Searched (m : Model) (g : Generator σ) (o : Options) (t : Tally) : Prop where
  sound : t.incumbent.Sound m
  headStart : m.HeadStart g o t.incumbent.bound
  optimal : t.stopped = false → ∀ s, m.Lawful s → t.incumbent.bound ≤ s.cost
  unlimited : o.maxNodes = none → o.maxMilliseconds = none → t.stopped = false

/-- The nodes that the tree begins with account for all lawful schedules. -/
theorem roots_eq (hm : m.WellFormed) (hs : m.Storable) {t : Tally} (ht : t.incumbent.Sound m) :
    ∃ blank outlook roots t', m.blankDraft = .ok blank ∧ m.enter blank = .ok outlook ∧
      m.follow t outlook = .ok (roots, t') ∧ t.Follows m t' ∧ t'.stopped = t.stopped ∧
      (∀ n ∈ roots, n.Sound m) ∧
      ∀ s, m.Lawful s → ∃ leaf, leaf.messages.size ≤ s.cost ∧
        (t'.incumbent.bound ≤ leaf.messages.size ∨ ∃ n ∈ roots, n.Leads m leaf) := by
  obtain ⟨blank, hblank, hsound, hquiet, htime, hnone, _⟩ := Draft.blank_sound hs
  obtain ⟨outlook, henter, houtlook⟩ := hsound.enter_sound hm hquiet
  obtain ⟨roots, t', hfollow, hfollows, hstill, hroots, haccounts⟩ := follow_eq hm hs houtlook ht
  refine ⟨blank, outlook, roots, t', hblank, henter, hfollow, hfollows, hstill, hroots,
    fun s hlaw => ?_⟩
  obtain ⟨outlook', leaf, henter', hleads, hcost⟩ :=
    enter_dominates hm hlaw hsound.toConsistent hquiet htime hnone
  cases henter.symm.trans henter'
  exact ⟨leaf, hcost, haccounts leaf hleads⟩

theorem search_eq (hm : m.WellFormed) (hs : m.Storable) (hsome : ∃ s, m.Lawful s)
    (g : Generator σ) (o : Options) (clock : Nat → Nat) :
    ∃ t, m.search g o clock = .ok t ∧ m.Searched g o t := by
  obtain ⟨t, hhead, ht, hgoing, hstart⟩ := headStart_eq hm hs hsome g o
  obtain ⟨blank, outlook, roots, t', hblank, henter, hfollow, hfollows, hstill, hroots,
    haccounts⟩ := roots_eq hm hs ht
  obtain ⟨last, hall, hmore, hbelow, hnever⟩ := visitAll_eq hm hs (o.limits clock)
    (max o.frontier 1) false roots t' hroots hfollows.sound
  refine ⟨last, by simp [search, hhead, hblank, henter, hfollow, hall], ?_⟩
  exact
    { sound := hmore.sound
      headStart := hstart.mono (Nat.le_trans hmore.bound_le hfollows.bound_le)
      optimal := by
        intro hend s hlaw
        obtain ⟨leaf, hcost, hle | ⟨n, hn, hleads⟩⟩ := haccounts s hlaw
        · exact Nat.le_trans hmore.bound_le (Nat.le_trans hle hcost)
        · exact Nat.le_trans (hbelow hend n hn leaf hleads) hcost
      unlimited := by
        intro hnodes htime
        have hpast : ∀ t, Tally.pastLimit t (o.limits clock) = t.stopped := by
          intro t
          rw [Options.limits_eq_free hnodes htime, Tally.pastLimit, Limits.met_free, Bool.or_false]
        rw [hnever hpast, hstill, hgoing] }

/-! ## Answers -/

/-- What a search comes to is reported as an answer. -/
theorem Searched.report_eq {g : Generator σ} {o : Options} {t : Tally} (h : m.Searched g o t)
    (hs : m.Storable) (clock : Nat → Nat) :
    ∃ found, m.report t clock = .ok (.feasible found) ∧ t.solution? clock = some found ∧
      m.Lawful found.schedule ∧ found.cost = found.schedule.cost ∧
      found.cost = t.incumbent.bound ∧ (found.provenOptimal = true ↔ t.stopped = false) := by
  obtain ⟨d, _, hbound, hlaw⟩ := h.headStart.flood
  have hsmall := hlaw.orderly.cost_lt hs
  rw [Draft.cost_schedule] at hsmall
  have hword : t.incumbent.bound < wordLimit - 1 :=
    Nat.lt_of_le_of_lt hbound (Nat.lt_of_lt_of_le hsmall (by decide))
  obtain ⟨schedule, hbest, hlawful, hcost⟩ := h.sound.exists_best hword
  have hshown : t.solution? clock = some {
      schedule := schedule
      cost := schedule.cost
      provenOptimal := !t.stopped
      effort := t.effort clock } := by
    rw [Tally.solution?, hbest]
    rfl
  refine ⟨_, ?_, hshown, hlawful, rfl, hcost, by simp⟩
  rw [report, hshown]

/-- The searching solver answers: with a reason if there is no lawful schedule,
and else with the incumbent of its search. -/
theorem solve_eq (hm : m.WellFormed) (hs : m.Storable) (g : Generator σ) (o : Options)
    (clock : Nat → Nat) :
    (¬ (∃ s, m.Lawful s) ∧ ∃ reason, m.solve g o clock = .ok (.infeasible reason)) ∨
      ∃ t found, m.Searched g o t ∧ m.solve g o clock = .ok (.feasible found) ∧
        m.Lawful found.schedule ∧ found.cost = found.schedule.cost ∧
        found.cost = t.incumbent.bound ∧ (found.provenOptimal = true ↔ t.stopped = false) := by
  obtain ⟨obstacle, hobstacle, hiff, _⟩ := obstacle_eq hm hs
  cases obstacle with
  | some reason =>
      have hnot : ¬ ∃ s, m.Lawful s := by
        intro hsome
        cases hiff.2 hsome
      exact .inl ⟨hnot, reason, by simp [solve, hobstacle]⟩
  | none =>
      obtain ⟨t, hsearch, hsearched⟩ := search_eq hm hs (hiff.1 rfl) g o clock
      obtain ⟨found, hreport, _, hfound⟩ := hsearched.report_eq hs clock
      exact .inr ⟨t, found, hsearched, by simp [solve, hobstacle, hsearch, hreport], hfound⟩

/-- Without an obstacle the answer is a schedule. -/
theorem exists_feasible (hm : m.WellFormed) (hs : m.Storable) (hnone : m.obstacle = .ok none)
    (g : Generator σ) (o : Options) (clock : Nat → Nat) :
    ∃ found, m.solve g o clock = .ok (.feasible found) := by
  obtain ⟨obstacle, hobstacle, hiff, _⟩ := obstacle_eq hm hs
  rw [hnone] at hobstacle
  cases hobstacle
  rcases solve_eq hm hs g o clock with ⟨hnot, _⟩ | ⟨_, found, _, hsolve, _⟩
  · exact absurd (hiff.1 rfl) hnot
  · exact ⟨found, hsolve⟩

/-! ## What a solver went through -/

/-- What holds of a tally to begin with, and is kept when a draft is submitted, holds
after the flood and the dives. -/
theorem headStart_induct (Inv : Tally → Prop) (hfresh : Inv .fresh)
    (hsubmit : ∀ d t t', m.submit d t = .ok t' → Inv t → Inv t') {g : Generator σ} {o : Options}
    {t : Tally} (hstart : m.headStart g o = .ok t) : Inv t := by
  have hdive : ∀ index t t', m.diveOnce g o t index = .ok t' → Inv t → Inv t' := by
    intro index t t' honce ht
    obtain ⟨result, _, honce⟩ := solving_bind_eq_ok.1 honce
    cases result with
    | none =>
        cases honce
        exact ht
    | some d => exact hsubmit d t t' honce ht
  have hdives : ∀ left index t t', m.diveOften g o left index t = .ok t' → Inv t → Inv t' := by
    intro left
    induction left with
    | zero =>
        intro index t t' hall ht
        cases hall
        exact ht
    | succ left ih =>
        intro index t t' hall ht
        obtain ⟨between, honce, hrest⟩ := solving_bind_eq_ok.1 hall
        exact ih (index + 1) between t' hrest (hdive index t between honce ht)
  obtain ⟨result, _, hstart⟩ := solving_bind_eq_ok.1 hstart
  cases result with
  | none => cases hstart
  | some d =>
      obtain ⟨first, hfirst, hrest⟩ := solving_bind_eq_ok.1 hstart
      exact hdives o.dives 0 first t hrest (hsubmit d .fresh first hfirst hfresh)

theorem report_eq_ok {t : Tally} {clock : Nat → Nat} {found : Solution}
    (h : m.report t clock = .ok (.feasible found)) : t.solution? clock = some found := by
  unfold report at h
  split at h
  · rename_i shown hshown
    cases h
    exact hshown
  · cases h

/-- How the searching solver comes to a schedule: its search shows it. -/
theorem search_of_solve {g : Generator σ} {o : Options} {clock : Nat → Nat} {found : Solution}
    (hsolve : m.solve g o clock = .ok (.feasible found)) :
    ∃ t, m.search g o clock = .ok t ∧ t.solution? clock = some found := by
  obtain ⟨obstacle, _, hsolve⟩ := solving_bind_eq_ok.1 hsolve
  cases obstacle with
  | some reason => cases hsolve
  | none =>
      obtain ⟨t, hsearch, hsolve⟩ := solving_bind_eq_ok.1 hsolve
      exact ⟨t, hsearch, report_eq_ok hsolve⟩

theorem verdict_eq_nil_of_isValid {s : Schedule} (h : m.isValid s = .ok true) :
    m.verdict s = .ok [] := by
  obtain ⟨breaches, hverdict, hempty⟩ := bind_eq_ok.1 h
  cases breaches with
  | nil => exact hverdict
  | cons breach rest => cases hempty

end Model

/-- An answer that is called optimal has the fewest messages of all valid
schedules, under the standard bank and every bank that adds rules to it; and
without limits every answer is called so. -/
theorem solve_optimal {p : Problem} {bank : RuleBank} {m : Model} {σ : Type}
    (hbank : ∀ rule ∈ RuleBank.standard.rules, rule ∈ bank.rules)
    (h : p.model bank = .ok m) (g : Generator σ) (o : Options) (clock : Nat → Nat) :
    ∃ answer, m.solve g o clock = .ok answer ∧ ∀ found, answer = .feasible found →
      (found.provenOptimal = true → ∀ s, m.isValid s = .ok true →
        found.cost ≤ s.messages.length) ∧
      (o.maxNodes = none → o.maxMilliseconds = none → found.provenOptimal = true) := by
  have hm := wellFormed_of_model h
  have hs := storable_of_model h
  rw [← bank_of_model h] at hbank
  rcases Model.solve_eq hm hs g o clock with
    ⟨_, reason, hsolve⟩ | ⟨t, found, hsearched, hsolve, _, _, hbound, hproven⟩
  · exact ⟨_, hsolve, nofun⟩
  · refine ⟨_, hsolve, ?_⟩
    intro found' heq
    cases heq
    constructor
    · intro hclaim s hvalid
      have hlawful : m.Lawful s :=
        Model.lawful_of_verdict_eq_nil hm hs hbank (Model.verdict_eq_nil_of_isValid hvalid)
      rw [hbound]
      exact hsearched.optimal (hproven.1 hclaim) s hlawful
    · intro hnodes htime
      exact hproven.2 (hsearched.unlimited hnodes htime)

/-- Without limits the answer for the meeting is optimal, so it has no more
messages than the schedule with six. -/
theorem announcedMeeting_solved :
    (∀ rule ∈ RuleBank.standard.rules, rule ∈ (RuleBank.standard.add .rankZeroAnnounce).rules) ∧
      meeting.model (RuleBank.standard.add .rankZeroAnnounce) = .ok announcedMeeting ∧
      ∃ found, announcedMeeting.solve Xoshiro.generator .standard (fun _ => 0) =
          .ok (.feasible found) ∧
        found.provenOptimal = true ∧ found.cost ≤ 6 := by
  have hbank : ∀ rule ∈ RuleBank.standard.rules,
      rule ∈ (RuleBank.standard.add .rankZeroAnnounce).rules := by decide
  have hbuilt : meeting.model (RuleBank.standard.add .rankZeroAnnounce) = .ok announcedMeeting :=
    rfl
  obtain ⟨found, hfound⟩ := Model.exists_feasible (wellFormed_of_model hbuilt)
    (storable_of_model hbuilt) rfl Xoshiro.generator .standard (fun _ => 0)
  obtain ⟨answer, hsolve, hanswer⟩ := solve_optimal hbank hbuilt Xoshiro.generator .standard
    (fun _ => 0)
  rw [hfound] at hsolve
  cases hsolve
  obtain ⟨hoptimal, hunlimited⟩ := hanswer found rfl
  have hproven : found.provenOptimal = true := hunlimited rfl rfl
  exact ⟨hbank, hbuilt, found, hfound, hproven, hoptimal hproven meetingSchedule rfl⟩

end ChainPropagation
