import ChainPropagation.Proofs.Solve
import ChainPropagation.Proofs.Walk

/-!
# Runs

Floods, dives and the search tree look different, but they make their schedules in
the same way.  In each step all nodes execute that may; unless the draft is finished
by that, some links are decided one after another, each in the light of the
decisions before it, and time passes.  Which links are offered, and whether a coin
or the search decides, makes no difference to what a step can do (`Takes.step_eq`).

Whatever a solver answers with is therefore the schedule of a run (`Model.Runs`).
A run may have steps in which nothing is sent.  The search closes those, so that the
nodes of its tree belong to runs without them (`SearchNode.Within`).

## Main results

* `runs_of_flood`, `runs_of_dive` — floods and dives make runs.
* `Outlook.runs_of_enter`, `SearchNode.Within.branch_runs` — so do all paths of the tree.
-/

namespace ChainPropagation

namespace Draft

variable {m : Model} {d e f g last leaf : Draft} {link : Nat × Nat} {links : List (Nat × Nat)}
  {σ : Type}

/-! ## Steps of a run -/

/-- One step of a run: the executions do not finish the draft, links are decided,
and time passes. -/
inductive Takes (m : Model) (d g : Draft) : Prop where
  | step {e f : Draft} {links : List (Nat × Nat)} (begins : m.beginStep d = .ok (.continuing e))
      (decided : Decided m links e f) (passes : f.passTime = .ok g) : Takes m d g

/-- A step in which something is sent. -/
def Speaks (m : Model) (d g : Draft) : Prop := Takes m d g ∧ d.messages.size < g.messages.size

/-- A run gets to where the executions of a step finish the draft. -/
def RunsTo (m : Model) (d leaf : Draft) : Prop :=
  ∃ last, Relation.ReflTransGen (Takes m) d last ∧ m.beginStep last = .ok (.finished leaf)

theorem RunsTo.of_finished (hbegin : m.beginStep d = .ok (.finished leaf)) : RunsTo m d leaf :=
  ⟨d, .refl, hbegin⟩

theorem RunsTo.head (hrun : RunsTo m g leaf) (hstep : Takes m d g) : RunsTo m d leaf := by
  obtain ⟨last, hsteps, hbegin⟩ := hrun
  exact ⟨last, .head hstep hsteps, hbegin⟩

/-- All that a step can do to a consistent draft. -/
theorem Takes.step_eq (hstep : Takes m d g) (hm : m.WellFormed) (h : d.Consistent m)
    (hquiet : d.Quiet) : ∃ e f links, Opens m d (d.Ready m) e ∧ ¬ e.EndsHold m ∧
      Decided m links e f ∧ Grows m e f ∧ f.time < m.horizon ∧ g = f.delivered := by
  cases hstep with
  | @step e f links begins decided passes =>
      obtain ⟨opened, hopens, ⟨_, hfinished⟩ | ⟨hends, hcontinuing⟩⟩ := h.beginStep_eq hm hquiet
      · rw [hfinished] at begins
        cases begins
      · rw [hcontinuing] at begins
        cases begins
        have hgrows := decided.grows hm hopens.consistent
        obtain ⟨hlt, hpass⟩ := eq_delivered_of_passTime passes
        rw [hgrows.consistent.horizon_eq] at hlt
        exact ⟨e, f, links, hopens, hends, decided, hgrows, hlt, hpass⟩

/-- A step keeps a draft sound and takes one time. -/
theorem Takes.sound (hstep : Takes m d g) (hm : m.WellFormed) (h : d.Sound m)
    (hquiet : d.Quiet) : g.Sound m ∧ g.Quiet ∧ g.time = d.time + 1 := by
  obtain ⟨e, f, links, hopens, _, _, hgrows, hlt, rfl⟩ := hstep.step_eq hm h.toConsistent hquiet
  have hf := hgrows.sound (hopens.sound hquiet h)
  exact ⟨hf.delivered hlt, quiet_delivered f, hopens.time_delivered hgrows.toSpreads⟩

/-- So a run from the blank draft keeps it sound. -/
theorem sound_of_takes (hrun : Relation.ReflTransGen (Takes m) (start m) d) (hm : m.WellFormed)
    (hlt : m.horizon < storageLimit) : d.Sound m ∧ d.Quiet := by
  induction hrun with
  | refl => exact ⟨sound_start hlt, quiet_start m⟩
  | tail _ step ih =>
      have hnext := step.sound hm ih.1 ih.2
      exact ⟨hnext.1, hnext.2.1⟩

theorem takes_of_speaks (hrun : Relation.ReflTransGen (Speaks m) d g) :
    Relation.ReflTransGen (Takes m) d g :=
  Relation.ReflTransGen.mono (fun _ _ hstep => And.left hstep) _ _ hrun

theorem sound_of_speaks (hrun : Relation.ReflTransGen (Speaks m) (start m) d)
    (hm : m.WellFormed) (hlt : m.horizon < storageLimit) : d.Sound m ∧ d.Quiet :=
  sound_of_takes (takes_of_speaks hrun) hm hlt

/-- One more decision. -/
theorem Decided.concat (hdecided : Decided m links d e)
    (huseful : m.isUseful e link.1 link.2 = .ok true) (hsend : e.send link.1 link.2 = .ok f) :
    Decided m (links ++ [link]) d f := by
  induction hdecided with
  | nil => exact .send huseful hsend .nil
  | skip _ ih => exact .skip (ih huseful hsend)
  | send useful sends _ ih => exact .send useful sends (ih huseful hsend)

/-! ## Floods -/

theorem decided_of_sendIfUseful (links : List (Nat × Nat)) :
    ∀ d : Draft, links.foldlM m.sendIfUseful d = .ok f → Decided m links d f := by
  induction links with
  | nil =>
      intro d hfold
      cases hfold
      exact .nil
  | cons link links ih =>
      intro d hfold
      rw [List.foldlM_cons] at hfold
      obtain ⟨e, hdecide, hrest⟩ := bind_eq_ok.1 hfold
      obtain ⟨answer, hasked, hdecide⟩ := bind_eq_ok.1 hdecide
      cases answer with
      | true => exact .send hasked hdecide (ih e hrest)
      | false =>
          cases hdecide
          exact .skip (ih d hrest)

theorem takes_of_floodOnce (hbegin : m.beginStep d = .ok (.continuing e))
    (hflood : m.floodOnce e = .ok f) (hpass : f.passTime = .ok g) : Takes m d g := by
  obtain ⟨links, _, hfold⟩ := bind_eq_ok.1 hflood
  exact .step hbegin (decided_of_sendIfUseful links e hfold) hpass

theorem runsTo_of_floodFrom (left : Nat) :
    ∀ d : Draft, m.floodFrom left d = .ok (some leaf) → RunsTo m d leaf := by
  induction left with
  | zero =>
      intro d hflood
      obtain ⟨opening, hbegin, hflood⟩ := bind_eq_ok.1 hflood
      cases opening with
      | finished f =>
          cases hflood
          exact .of_finished hbegin
      | continuing e => cases hflood
  | succ left ih =>
      intro d hflood
      obtain ⟨opening, hbegin, hflood⟩ := bind_eq_ok.1 hflood
      cases opening with
      | finished f =>
          cases hflood
          exact .of_finished hbegin
      | continuing e =>
          obtain ⟨f, honce, hflood⟩ := bind_eq_ok.1 hflood
          obtain ⟨g, hpass, hrest⟩ := bind_eq_ok.1 hflood
          exact (ih g hrest).head (takes_of_floodOnce hbegin honce hpass)

/-! ## Dives -/

variable {next : σ → UInt64 × σ} {coin : Coin}

/-- What the coin can do: a link is skipped, or sent along if it is useful. -/
theorem sendIfChosen_eq_ok {now later : Draft × σ}
    (h : m.sendIfChosen next coin now link = .ok later) : later.1 = now.1 ∨
      (m.isUseful now.1 link.1 link.2 = .ok true ∧ now.1.send link.1 link.2 = .ok later.1) := by
  obtain ⟨d, s⟩ := now
  obtain ⟨useful, hasked, h⟩ := bind_eq_ok.1 h
  cases useful with
  | false =>
      cases h
      exact .inl rfl
  | true =>
      obtain ⟨owed, _, h⟩ := bind_eq_ok.1 h
      cases owed with
      | true =>
          obtain ⟨e, hsend, h⟩ := bind_eq_ok.1 h
          cases h
          exact .inr ⟨hasked, hsend⟩
      | false =>
          cases htoss : coin.toss next s with
          | mk head after =>
              simp only [htoss] at h
              cases head with
              | true =>
                  obtain ⟨e, hsend, h⟩ := bind_eq_ok.1 h
                  cases h
                  exact .inr ⟨hasked, hsend⟩
              | false =>
                  cases h
                  exact .inl rfl

theorem decided_of_sendIfChosen (links : List (Nat × Nat)) : ∀ now later : Draft × σ,
    links.foldlM (m.sendIfChosen next coin) now = .ok later → Decided m links now.1 later.1 := by
  induction links with
  | nil =>
      intro now later hfold
      cases hfold
      exact .nil
  | cons link links ih =>
      intro now later hfold
      rw [List.foldlM_cons] at hfold
      obtain ⟨between, hdecide, hrest⟩ := bind_eq_ok.1 hfold
      have hgoes := ih between later hrest
      rcases sendIfChosen_eq_ok hdecide with hskip | ⟨huseful, hsend⟩
      · rw [hskip] at hgoes
        exact .skip hgoes
      · exact .send huseful hsend hgoes

theorem takes_of_diveOn {s s' : σ} (hbegin : m.beginStep d = .ok (.continuing e))
    (hdive : m.diveOn next coin e s = .ok (g, s')) : Takes m d g := by
  obtain ⟨tried, hsends, hdive⟩ := bind_eq_ok.1 hdive
  obtain ⟨passed, hpass, hdive⟩ := bind_eq_ok.1 hdive
  obtain ⟨can, _, hdive⟩ := bind_eq_ok.1 hdive
  cases can with
  | true =>
      cases hdive
      obtain ⟨links, _, hfold⟩ := bind_eq_ok.1 hsends
      exact .step hbegin (decided_of_sendIfChosen links _ _ hfold) hpass
  | false =>
      -- the random step is taken back
      obtain ⟨f, hflood, hdive⟩ := bind_eq_ok.1 hdive
      obtain ⟨flooded, hpass, hdive⟩ := bind_eq_ok.1 hdive
      cases hdive
      exact takes_of_floodOnce hbegin hflood hpass

theorem runsTo_of_diveFrom (left : Nat) : ∀ (d : Draft) (s s' : σ),
    m.diveFrom next coin left d s = .ok (some leaf, s') → RunsTo m d leaf := by
  induction left with
  | zero =>
      intro d s s' hdive
      obtain ⟨opening, hbegin, hdive⟩ := bind_eq_ok.1 hdive
      cases opening with
      | finished f =>
          cases hdive
          exact .of_finished hbegin
      | continuing e => cases hdive
  | succ left ih =>
      intro d s s' hdive
      obtain ⟨opening, hbegin, hdive⟩ := bind_eq_ok.1 hdive
      cases opening with
      | finished f =>
          cases hdive
          exact .of_finished hbegin
      | continuing e =>
          obtain ⟨⟨g, between⟩, hon, hrest⟩ := bind_eq_ok.1 hdive
          exact (ih g between s' hrest).head (takes_of_diveOn hbegin hon)

/-- What is not too large for a table begins with the blank draft. -/
theorem eq_start_of_blankDraft (hblank : m.blankDraft = .ok d) : d = start m := by
  obtain ⟨table, htable, hblank⟩ := bind_eq_ok.1 hblank
  obtain ⟨rows, hrows, htable⟩ := bind_eq_ok.1 htable
  obtain ⟨_, _, htable⟩ := bind_eq_ok.1 htable
  cases eq_of_fitting hrows
  cases htable
  cases hblank
  rfl

theorem horizon_lt_of_blankDraft (hm : m.WellFormed) (hblank : m.blankDraft = .ok d) :
    m.horizon < storageLimit := by
  obtain ⟨table, htable, _⟩ := bind_eq_ok.1 hblank
  obtain ⟨rows, hrows, htable⟩ := bind_eq_ok.1 htable
  obtain ⟨_, hstores, _⟩ := bind_eq_ok.1 htable
  cases eq_of_fitting hrows
  unfold storing at hstores
  split at hstores
  · rename_i hfull
    have hrows := Nat.mul_le_mul_right (m.horizon + 1) hm.two_le
    have hfull : m.chain.nodes * (m.horizon + 1) < storageLimit := hfull
    omega
  · cases hstores

end Draft

namespace Model

variable {m : Model} {d leaf : Draft} {σ : Type}

/-! ## Schedules of runs -/

/-- The schedule of a run from the blank draft. -/
def Runs (m : Model) (s : Schedule) : Prop :=
  ∃ leaf, Draft.RunsTo m (.start m) leaf ∧ leaf.schedule = s

theorem runs_of_flood (hflood : m.flood = .ok (some d)) : m.Runs d.schedule := by
  obtain ⟨blank, hblank, hfrom⟩ := bind_eq_ok.1 hflood
  rw [Draft.eq_start_of_blankDraft hblank] at hfrom
  exact ⟨d, Draft.runsTo_of_floodFrom m.horizon _ hfrom, rfl⟩

theorem runs_of_dive {next : σ → UInt64 × σ} {coin : Coin} {s s' : σ}
    (hdive : m.dive next coin s = .ok (some d, s')) : m.Runs d.schedule := by
  obtain ⟨blank, hblank, hfrom⟩ := bind_eq_ok.1 hdive
  rw [Draft.eq_start_of_blankDraft hblank] at hfrom
  exact ⟨d, Draft.runsTo_of_diveFrom m.horizon _ s s' hfrom, rfl⟩

end Model

/-! ## Paths of the search tree -/

/-- A node belongs to a run in which something is sent in each step; some links of
its last step are decided. -/
def SearchNode.Within (m : Model) (n : SearchNode) : Prop :=
  ∃ last e links, Relation.ReflTransGen (Draft.Speaks m) (.start m) last ∧
    m.beginStep last = .ok (.continuing e) ∧ Draft.Decided m links e n.draft

/-- What is complete ends a run, and what is to be explored belongs to one. -/
def Outlook.Runs (m : Model) : Outlook → Prop
  | .closed => True
  | .unreachable => True
  | .complete leaf => Draft.RunsTo m (.start m) leaf
  | .children nodes => ∀ c ∈ nodes, c.Within m

variable {m : Model} {n : SearchNode} {d : Draft} {outlook : Outlook} {t t' : Tally}
  {nodes : List SearchNode} {limits : Limits}

theorem Outlook.runs_of_enter (hrun : Relation.ReflTransGen (Draft.Speaks m) (.start m) d)
    (henter : m.enter d = .ok outlook) : outlook.Runs m := by
  rcases Model.enter_eq_ok henter with
    rfl | ⟨leaf, hbegin, rfl⟩ | ⟨e, hbegin, ⟨_, rfl⟩ | ⟨links, _, _, rfl⟩⟩
  · trivial
  · exact ⟨d, Draft.takes_of_speaks hrun, hbegin⟩
  · trivial
  · intro c hc
    cases List.mem_singleton.1 hc
    exact ⟨d, e, [], hrun, hbegin, .nil⟩

namespace SearchNode.Within

/-- When the last step of a node is over, it is one of those in which something is
sent. -/
theorem speaks (h : n.Within m) (hm : m.WellFormed) (hlt : m.horizon < storageLimit)
    (hspeaks : n.draft.isSilent = false) (hpass : n.draft.passTime = .ok d) :
    Relation.ReflTransGen (Draft.Speaks m) (.start m) d := by
  obtain ⟨last, e, links, hrun, hbegin, hdecided⟩ := h
  have hlast := Draft.sound_of_speaks hrun hm hlt
  have hopens := hlast.1.opens_of_executeReady hm (Model.beginStep_eq_continuing hbegin)
  refine .tail hrun ⟨.step hbegin hdecided hpass, ?_⟩
  rw [(Draft.eq_delivered_of_passTime hpass).2, ← hopens.messages_eq]
  rcases hdecided.eq_or_size_lt with hsame | hmore
  · rw [hsame, hopens.consistent.isSilent_eq (hopens.quiet hlast.2)] at hspeaks
    cases hspeaks
  · exact hmore

theorem branch_runs (h : n.Within m) (hm : m.WellFormed) (hlt : m.horizon < storageLimit)
    (hbranch : m.branch n = .ok outlook) : outlook.Runs m := by
  rcases Model.branch_eq_ok hbranch with ⟨_, ⟨_, rfl⟩ | ⟨hspeaks, d, hpass, henter⟩⟩ |
    ⟨link, rest, _, ⟨_, rfl⟩ | ⟨huseful, d, hsend, rfl⟩⟩
  · trivial
  · exact Outlook.runs_of_enter (h.speaks hm hlt hspeaks hpass) henter
  · intro c hc
    cases List.mem_singleton.1 hc
    exact h
  · obtain ⟨last, e, links, hrun, hbegin, hdecided⟩ := h
    intro c hc
    rcases List.mem_cons.1 hc with rfl | hc
    · exact ⟨last, e, links, hrun, hbegin, hdecided⟩
    · cases List.mem_singleton.1 hc
      exact ⟨last, e, links ++ [link], hrun, hbegin, hdecided.concat huseful hsend⟩

end SearchNode.Within

/-! ## Searches -/

/-- The incumbent, if there is one, is the schedule of a run. -/
def Incumbent.Runs (m : Model) (i : Incumbent) : Prop := ∀ s, i.best = some s → m.Runs s

namespace Incumbent

theorem fresh_runs : fresh.Runs m := nofun

theorem Runs.consider {i : Incumbent} (h : i.Runs m) {s : Schedule} (hs : m.Runs s) :
    (i.consider s).Runs m := by
  unfold Incumbent.consider
  split
  · intro best hbest
    cases hbest
    exact hs
  · exact h

end Incumbent

namespace Model

theorem runs_of_submit (hsubmit : m.submit d t = .ok t') (ht : t.incumbent.Runs m)
    (hd : m.Runs d.schedule) : t'.incumbent.Runs m := by
  rw [(submit_eq_ok hsubmit).2]
  exact ht.consider hd

theorem within_of_follow (hfollow : m.follow t outlook = .ok (nodes, t'))
    (houtlook : outlook.Runs m) : ∀ c ∈ nodes, c.Within m := by
  rcases nodes_of_follow hfollow with rfl | rfl
  · nofun
  · exact houtlook

theorem runs_of_follow (hfollow : m.follow t outlook = .ok (nodes, t')) (houtlook : outlook.Runs m)
    (ht : t.incumbent.Runs m) : t'.incumbent.Runs m := by
  rcases follow_eq_ok hfollow with ⟨_, hsame, _⟩ | ⟨leaf, rfl, _, hsubmit⟩ | ⟨_, rfl⟩
  · rw [hsame]
    exact ht
  · exact runs_of_submit hsubmit ht ⟨leaf, houtlook, rfl⟩
  · exact ht

theorem within_of_visit (hvisit : m.visit limits n t = .ok (nodes, t')) (hm : m.WellFormed)
    (hlt : m.horizon < storageLimit) (hn : n.Within m) : ∀ c ∈ nodes, c.Within m := by
  rcases nodes_of_visit hvisit with rfl | hbranch
  · nofun
  · exact hn.branch_runs hm hlt hbranch

theorem runs_of_visit (hvisit : m.visit limits n t = .ok (nodes, t')) (hm : m.WellFormed)
    (hlt : m.horizon < storageLimit) (hn : n.Within m) (ht : t.incumbent.Runs m) :
    t'.incumbent.Runs m := by
  rcases visit_eq_ok hvisit with ⟨_, hsame, _⟩ | ⟨outlook, hbranch, hfollow⟩
  · rw [hsame]
    exact ht
  · exact runs_of_follow hfollow (hn.branch_runs hm hlt hbranch) ht

theorem runs_of_diveAt {g : Generator σ} {o : Options} {index : Nat}
    (hdive : m.diveAt g o index = .ok (some d)) : m.Runs d.schedule := by
  obtain ⟨⟨result, after⟩, hmade, hdive⟩ := bind_eq_ok.1 hdive
  cases hdive
  exact runs_of_dive hmade

/-- How a search goes: a head start, and then the tree below the blank draft. -/
theorem search_eq_ok {g : Generator σ} {o : Options} {clock : Nat → Nat}
    (hsearch : m.search g o clock = .ok t) :
    ∃ begun outlook roots entered, m.headStart g o = .ok begun ∧
      m.enter (.start m) = .ok outlook ∧ m.follow begun outlook = .ok (roots, entered) ∧
      m.visitAll (o.limits clock) (max o.frontier 1) false roots entered = .ok t := by
  obtain ⟨begun, hstart, hsearch⟩ := solving_bind_eq_ok.1 hsearch
  obtain ⟨blank, hblank, hsearch⟩ := solving_bind_eq_ok.1 hsearch
  obtain ⟨outlook, henter, hsearch⟩ := solving_bind_eq_ok.1 hsearch
  obtain ⟨⟨roots, entered⟩, hfollow, hall⟩ := solving_bind_eq_ok.1 hsearch
  rw [Draft.eq_start_of_blankDraft (ofChecked_eq_ok.1 hblank)] at henter
  exact ⟨begun, outlook, roots, entered, hstart, ofChecked_eq_ok.1 henter, hfollow, hall⟩

end Model

end ChainPropagation
