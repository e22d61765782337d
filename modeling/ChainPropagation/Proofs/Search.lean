import ChainPropagation.Proofs.Dominance
import ChainPropagation.Search

/-!
# The search keeps its promise

Over a whole search the bound of the incumbent only goes down, and the incumbent
stays a lawful schedule of just that cost (`Tally.Follows`).  A search that was
not stopped has accounted for everything: no complete draft below a node that
was pending has fewer messages than the final bound (`Model.visitAll_eq`).

The step lemma `Model.visit_eq` has the three ways to account for what lies
below a node: it does not stay below the bound, it has been submitted, or it
lies below a node that is now pending.
-/

namespace ChainPropagation

variable {m : Model}

/-! ## The incumbent -/

/-- The bound is the cost of the incumbent, which is lawful. -/
structure Incumbent.Sound (m : Model) (i : Incumbent) : Prop where
  bound_of_none : i.best = none → i.bound = wordLimit - 1
  lawful : ∀ s, i.best = some s → m.Lawful s ∧ s.cost = i.bound

namespace Incumbent

theorem fresh_sound : fresh.Sound m := ⟨fun _ => rfl, nofun⟩

theorem bound_consider (i : Incumbent) (s : Schedule) :
    (i.consider s).bound = min i.bound s.cost := by
  rw [consider, improvedBy]
  by_cases hless : s.cost < i.bound
  · rw [if_pos (decide_eq_true hless)]
    show s.cost = _
    omega
  · rw [if_neg (by simpa using hless)]
    omega

theorem Sound.consider {i : Incumbent} (h : i.Sound m) {s : Schedule} (hlaw : m.Lawful s) :
    (i.consider s).Sound m := by
  unfold Incumbent.consider
  split
  · refine ⟨nofun, fun best hbest => ?_⟩
    cases hbest
    exact ⟨hlaw, rfl⟩
  · exact h

/-- Below the first bound there is an incumbent. -/
theorem Sound.exists_best {i : Incumbent} (h : i.Sound m) (hlt : i.bound < wordLimit - 1) :
    ∃ s, i.best = some s ∧ m.Lawful s ∧ s.cost = i.bound := by
  cases hbest : i.best with
  | none =>
      have hbound := h.bound_of_none hbest
      omega
  | some s => exact ⟨s, rfl, h.lawful s hbest⟩

end Incumbent

/-- A later tally: the bound did not go up, the incumbent is sound, and what is
stopped stays so. -/
structure Tally.Follows (m : Model) (t t' : Tally) : Prop where
  bound_le : t'.incumbent.bound ≤ t.incumbent.bound
  sound : t'.incumbent.Sound m
  stopped : t.stopped = true → t'.stopped = true

namespace Tally.Follows

variable {t t' t'' : Tally}

theorem refl (h : t.incumbent.Sound m) : t.Follows m t := ⟨Nat.le_refl _, h, id⟩

theorem trans (h : t.Follows m t') (h' : t'.Follows m t'') : t.Follows m t'' :=
  { bound_le := Nat.le_trans h'.bound_le h.bound_le
    sound := h'.sound
    stopped := fun hstopped => h'.stopped (h.stopped hstopped) }

theorem going (h : t.Follows m t') (hgoing : t'.stopped = false) : t.stopped = false := by
  cases hstopped : t.stopped with
  | false => rfl
  | true =>
      rw [h.stopped hstopped] at hgoing
      cases hgoing

end Tally.Follows

/-- Without limits none is ever met. -/
theorem Limits.met_free (number : Nat) : free.met number = false := by
  simp [met, free]

namespace Model

/-! ## One node -/

/-- What a completion costs at least is counted without a fault. -/
theorem leastCost_eq (hm : m.WellFormed) (hs : m.Storable) {d : Draft} (h : d.Sound m)
    {needed : Nat} (hneeded : m.stillNeeded d = .ok needed) :
    m.leastCost d = .ok (d.messages.size + needed) := by
  have hsent := h.orderly.cost_lt hs
  rw [Draft.cost_schedule] at hsent
  have hshort := Draft.hopsMissing_le hm d
  have hcap : m.chain.nodes ≤ 64 := hm.le_capacity
  have hsame := h.fits.stillNeeded_eq_ok hm
  rw [hneeded] at hsame
  cases hsame
  rw [leastCost, hneeded, ok_bind]
  apply fitting_of_lt
  unfold storageLimit at hsent
  unfold wordLimit
  omega

/-- To a draft that is done no rule objects, whatever the bank. -/
theorem judged_eq (hm : m.WellFormed) (hs : m.Storable) {d : Draft} (hd : d.Finished m) :
    m.judged d = .ok d.schedule := by
  rw [judged, hd.fits.scheduleChecked_eq, lift_ok, ok_bind,
    verdict_eq_nil_of_lawful hm hs hd.lawful]
  rfl

/-- So it is accepted. -/
theorem submit_eq (hm : m.WellFormed) (hs : m.Storable) {d : Draft} (hd : d.Finished m) {t : Tally}
    (ht : t.incumbent.Sound m) : ∃ t', m.submit d t = .ok t' ∧ t.Follows m t' ∧
      t'.incumbent.bound ≤ d.messages.size ∧ t'.stopped = t.stopped := by
  refine ⟨{ t with incumbent := t.incumbent.consider d.schedule, accepted := t.accepted + 1 }, ?_,
    ⟨?_, ht.consider hd.lawful, id⟩, ?_, rfl⟩
  · rw [submit, judged_eq hm hs hd, ok_bind, Incumbent.offer_eq]
    rfl
  · rw [Incumbent.bound_consider]
    exact Nat.min_le_left _ _
  · rw [Incumbent.bound_consider, Draft.cost_schedule]
    exact Nat.min_le_right _ _

/-- What lies below is submitted or pending. -/
theorem follow_eq (hm : m.WellFormed) (hs : m.Storable) {outlook : Outlook}
    (houtlook : outlook.Sound m) {t : Tally} (ht : t.incumbent.Sound m) :
    ∃ nodes t', m.follow t outlook = .ok (nodes, t') ∧ t.Follows m t' ∧
      t'.stopped = t.stopped ∧ (∀ c ∈ nodes, c.Sound m) ∧
      ∀ d, outlook.Leads m d → t'.incumbent.bound ≤ d.messages.size ∨
        ∃ c ∈ nodes, c.Leads m d := by
  cases outlook with
  | closed => exact ⟨[], t, rfl, .refl ht, rfl, nofun, nofun⟩
  | unreachable => exact ⟨[], _, rfl, ⟨Nat.le_refl _, ht, id⟩, rfl, nofun, nofun⟩
  | complete d =>
      obtain ⟨t', hsubmit, hfollows, hbound, hstopped⟩ := submit_eq hm hs houtlook ht
      refine ⟨[], t', by rw [follow, hsubmit]; rfl, hfollows, hstopped, nofun, fun d' hleads => ?_⟩
      cases hleads
      exact .inl hbound
  | children nodes =>
      refine ⟨nodes, t, rfl, .refl ht, rfl, houtlook, fun d hleads => ?_⟩
      cases hleads with
      | child mem below rest => exact .inr ⟨_, mem, _, below, rest⟩

theorem visit_of_pastLimit {limits : Limits} {n : SearchNode} {t : Tally}
    (hpast : Tally.pastLimit { t with explored := t.explored + 1 } limits = true) :
    m.visit limits n t = .ok ([], { t with explored := t.explored + 1, stopped := true }) := by
  unfold visit
  exact if_pos hpast

/-- To visit a sound node meets no fault, and unless it is stopped it accounts
for all that lies below the node. -/
theorem visit_eq (hm : m.WellFormed) (hs : m.Storable) (limits : Limits) {n : SearchNode}
    (hn : n.Sound m) {t : Tally} (ht : t.incumbent.Sound m) :
    ∃ nodes t', m.visit limits n t = .ok (nodes, t') ∧ t.Follows m t' ∧
      (∀ c ∈ nodes, c.Sound m) ∧
      (t'.stopped = true ↔
        Tally.pastLimit { t with explored := t.explored + 1 } limits = true) ∧
      (t'.stopped = false → ∀ d, n.Leads m d → t'.incumbent.bound ≤ d.messages.size ∨
        ∃ c ∈ nodes, c.Leads m d) := by
  by_cases hpast : Tally.pastLimit { t with explored := t.explored + 1 } limits = true
  · refine ⟨[], { t with explored := t.explored + 1, stopped := true }, ?_,
      ⟨Nat.le_refl _, ht, fun _ => rfl⟩, nofun, iff_of_true rfl hpast,
      fun hstopped => by cases hstopped⟩
    exact visit_of_pastLimit hpast
  · have hgoing : t.stopped = false := by
      simp only [Tally.pastLimit, Bool.or_eq_true, not_or, Bool.not_eq_true] at hpast
      exact hpast.1
    obtain ⟨first, last, hneeded, _⟩ := hn.draft.stillNeeded_eq hm
    obtain ⟨outlook, hbranch, houtlook⟩ := hn.branch_eq hm
    have hleast := leastCost_eq hm hs hn.draft hneeded
    by_cases hcut : t.incumbent.bound ≤ n.draft.messages.size + (first + last)
    · refine ⟨[], { t with explored := t.explored + 1, cutByBound := t.cutByBound + 1 }, ?_,
        ⟨Nat.le_refl _, ht, id⟩, nofun, ?_, fun _ d hleads => .inl ?_⟩
      · simp [visit, hpast, hleast, hcut]
      · exact iff_of_false (by simp [hgoing]) hpast
      · exact Nat.le_trans hcut (hleads.le_size hn hm ⟨_, hneeded, Nat.le_refl _⟩)
    · obtain ⟨nodes, t', hfollow, hfollows, hstopped, hsound, hleads⟩ :=
        follow_eq hm hs houtlook (t := { t with explored := t.explored + 1 }) ht
      refine ⟨nodes, t', ?_, ⟨hfollows.bound_le, hfollows.sound, hfollows.stopped⟩, hsound,
        ?_, fun _ d hd => ?_⟩
      · simp [visit, hpast, hleast, hcut, hbranch, hfollow]
      · rw [hstopped]
        exact iff_of_false (by simp [hgoing]) hpast
      · obtain ⟨below, hbelow, hd⟩ := hd
        rw [hbranch] at hbelow
        cases hbelow
        exact hleads d hd

/-! ## All nodes -/

section

variable {limits : Limits} {size : Nat} {t : Tally}

theorem visitAll_nil (deep : Bool) : m.visitAll limits size deep [] t = .ok t := by
  rw [visitAll]

theorem visitAll_of_stopped (hstopped : t.stopped = true) (deep : Bool)
    (pending : List SearchNode) : m.visitAll limits size deep pending t = .ok t := by
  cases pending with
  | nil => exact visitAll_nil deep
  | cons n rest =>
      rw [visitAll]
      exact if_pos hstopped

theorem visitAll_cons (hgoing : t.stopped = false) (deep : Bool) (n : SearchNode)
    (rest : List SearchNode) : m.visitAll limits size deep (n :: rest) t =
      m.visit limits n t >>= fun (nodes, t') =>
        m.visitAll limits size (deep || size ≤ (n :: rest).length)
          (enqueue (deep || size ≤ (n :: rest).length) nodes rest) t' := by
  rw [visitAll, if_neg (by simp [hgoing])]
  cases hvisit : m.visit limits n t with
  | error e => rfl
  | ok visited => rfl

end

theorem mem_enqueue {deep : Bool} {nodes rest : List SearchNode} {n : SearchNode} :
    n ∈ enqueue deep nodes rest ↔ n ∈ nodes ∨ n ∈ rest := by
  cases deep with
  | true => exact List.mem_append
  | false => exact List.mem_append.trans or_comm

theorem forall_mem_enqueue {P : SearchNode → Prop} {deep : Bool} {nodes rest : List SearchNode} :
    (∀ n ∈ enqueue deep nodes rest, P n) ↔ (∀ n ∈ nodes, P n) ∧ ∀ n ∈ rest, P n := by
  simp only [mem_enqueue, or_imp, forall_and]

/-- A search from sound nodes meets no fault, its bound does not go up, and if
it was not stopped no complete draft below the nodes is better than its bound. -/
theorem visitAll_eq (hm : m.WellFormed) (hs : m.Storable) (limits : Limits) (size : Nat)
    (deep : Bool) (pending : List SearchNode) (t : Tally) (hsound : ∀ n ∈ pending, n.Sound m)
    (ht : t.incumbent.Sound m) :
    ∃ t', m.visitAll limits size deep pending t = .ok t' ∧ t.Follows m t' ∧
      (t'.stopped = false → ∀ n ∈ pending, ∀ d, n.Leads m d →
        t'.incumbent.bound ≤ d.messages.size) ∧
      ((∀ t, Tally.pastLimit t limits = t.stopped) → t'.stopped = t.stopped) := by
  fun_induction Model.visitAll m limits size deep pending t with
  | case1 _ t => exact ⟨t, rfl, .refl ht, fun _ => nofun, fun _ => rfl⟩
  | case2 _ t _ _ hstopped =>
      exact ⟨t, rfl, .refl ht, fun hgoing => by simp [hstopped] at hgoing, fun _ => rfl⟩
  | case3 _ t n rest _ fault hvisit =>
      -- a sound node is visited without a fault
      obtain ⟨nodes, t', hok, _⟩ := visit_eq hm hs limits (hsound n (by simp)) ht
      rw [hvisit] at hok
      cases hok
  | case4 _ t n rest hgoing nodes t' hvisit deeper ih =>
      obtain ⟨_, _, hok, hfollows, hnodes, hstopped, haccounts⟩ :=
        visit_eq hm hs limits (hsound n (by simp)) ht
      rw [hvisit] at hok
      cases hok
      have hpending : ∀ c ∈ enqueue deeper nodes rest, c.Sound m := by
        intro c hc
        rcases mem_enqueue.1 hc with hnew | hold
        · exact hnodes c hnew
        · exact hsound c (by simp [hold])
      obtain ⟨last, hall, hmore, hbound, hnever⟩ := ih hpending hfollows.sound
      refine ⟨last, hall, hfollows.trans hmore, fun hend other hother d hd => ?_, fun hnone => ?_⟩
      · rcases List.mem_cons.1 hother with rfl | hold
        · rcases haccounts (hmore.going hend) d hd with hle | ⟨c, hc, hleads⟩
          · exact Nat.le_trans hmore.bound_le hle
          · exact hbound hend c (mem_enqueue.2 (.inl hc)) d hleads
        · exact hbound hend other (mem_enqueue.2 (.inr hold)) d hd
      · have hsame : t'.stopped = true ↔ t.stopped = true := by
          rw [hstopped, hnone]
        rw [hnever hnone]
        exact Bool.eq_iff_iff.2 hsame

/-! ## What a search went through -/

/-- What has been judged is the schedule of its draft, and no rule objected. -/
theorem judged_eq_ok {d : Draft} {s : Schedule} (h : m.judged d = .ok s) :
    s = d.schedule ∧ m.verdict d.schedule = .ok [] := by
  obtain ⟨schedule, hschedule, h⟩ := solving_bind_eq_ok.1 h
  cases Draft.eq_schedule_of_scheduleChecked (ofChecked_eq_ok.1 hschedule)
  obtain ⟨breaches, hverdict, h⟩ := solving_bind_eq_ok.1 h
  cases breaches with
  | nil =>
      cases h
      exact ⟨rfl, ofChecked_eq_ok.1 hverdict⟩
  | cons breach rest => cases h

/-- A schedule that is accepted has been judged. -/
theorem submit_eq_ok {d : Draft} {t t' : Tally} (h : m.submit d t = .ok t') :
    m.verdict d.schedule = .ok [] ∧ t' = { t with
      incumbent := t.incumbent.consider d.schedule
      accepted := t.accepted + 1 } := by
  obtain ⟨schedule, hjudged, h⟩ := solving_bind_eq_ok.1 h
  obtain ⟨rfl, hverdict⟩ := judged_eq_ok hjudged
  cases h
  rw [Incumbent.offer_eq]
  exact ⟨hverdict, rfl⟩

theorem explored_of_follow {outlook : Outlook} {t t' : Tally} {nodes : List SearchNode}
    (h : m.follow t outlook = .ok (nodes, t')) : t'.explored = t.explored := by
  rcases follow_eq_ok h with ⟨_, _, hexplored⟩ | ⟨leaf, _, _, hsubmit⟩ | ⟨_, rfl⟩
  · exact hexplored
  · rw [(submit_eq_ok hsubmit).2]
  · rfl

theorem stopped_of_follow {outlook : Outlook} {t t' : Tally} {nodes : List SearchNode}
    (h : m.follow t outlook = .ok (nodes, t')) : t'.stopped = t.stopped := by
  cases outlook with
  | closed =>
      cases h
      rfl
  | unreachable =>
      cases h
      rfl
  | complete leaf =>
      obtain ⟨after, hsubmit, h⟩ := solving_bind_eq_ok.1 h
      cases h
      rw [(submit_eq_ok hsubmit).2]
  | children nodes =>
      cases h
      rfl

theorem explored_of_visit {limits : Limits} {n : SearchNode} {t t' : Tally}
    {nodes : List SearchNode} (h : m.visit limits n t = .ok (nodes, t')) :
    t'.explored = t.explored + 1 := by
  rcases visit_eq_ok h with ⟨_, _, hexplored⟩ | ⟨outlook, _, hfollow⟩
  · exact hexplored
  · exact explored_of_follow hfollow

/-- What every visit keeps, of the pending nodes and the tally, holds in the end. -/
theorem visitAll_induct {limits : Limits} {size : Nat} (Inv : List SearchNode → Tally → Prop)
    (hstep : ∀ n rest t nodes t', Inv (n :: rest) t → m.visit limits n t = .ok (nodes, t') →
      ∀ deep, Inv (enqueue deep nodes rest) t')
    {deep : Bool} {pending : List SearchNode} {t last : Tally}
    (hall : m.visitAll limits size deep pending t = .ok last) (h : Inv pending t) :
    ∃ left, Inv left last := by
  fun_induction Model.visitAll m limits size deep pending t with
  | case1 _ t =>
      cases hall
      exact ⟨[], h⟩
  | case2 _ t n rest _ =>
      cases hall
      exact ⟨n :: rest, h⟩
  | case3 _ t n rest _ fault hvisit => cases hall
  | case4 _ t n rest _ nodes t' hvisit deeper ih =>
      exact ih hall (hstep n rest t nodes t' h hvisit deeper)

end Model

end ChainPropagation
