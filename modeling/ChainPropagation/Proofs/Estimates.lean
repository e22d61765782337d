import ChainPropagation.Proofs.Reach

/-!
# Estimates in any draft

The estimates of a draft are found one after another, by rank.  What they say can be said
without that order: a node that did not execute starts when all that it waits for can be
there, which depends on the estimates of nodes of lower ranks only (`Draft.StartsBy`).

Whatever the draft, even one that no schedule leads to, there is exactly one list of
estimates for which this holds (`Fits.exists_coheres`, `Coheres.unique`).  So estimates can be
compared without going through the nodes in the order in which they were found.
-/

namespace ChainPropagation

theorem Met.ext {a b : Option Nat} (h : ∀ time, Met a time ↔ Met b time) : a = b := by
  cases a with
  | some first => exact (Met.eq_some fun time => (h time).symm.trans Met.some_iff).symm
  | none =>
      cases b with
      | none => rfl
      | some second => exact absurd ((h second).2 (Met.some_iff.2 (Nat.le_refl _))) Met.none_iff.1

/-- Two estimates are the same if they are the least times with the same property. -/
theorem Soonest.same {a b : Checked (Option Nat)} {holds holds' : Nat → Prop}
    (ha : Soonest a holds) (hb : Soonest b holds') (h : ∀ time, holds time ↔ holds' time) :
    ∃ e, a = .ok e ∧ b = .ok e := by
  obtain ⟨first, hfirst, hmet⟩ := ha
  obtain ⟨second, hsecond, hmet'⟩ := hb
  have hsame : first = second := Met.ext fun time => by rw [hmet, hmet', h]
  exact ⟨first, hfirst, hsame ▸ hsecond⟩

namespace Draft

variable {m : Model} {d : Draft} {known : List Nat} {estimates others : List (Option Nat)}
  {node : Nat}

/-! ## What the estimates say -/

/-- When a node starts is a matter of the estimates for what it waits for. -/
theorem startsBy_congr (h : ∀ other, m.Waits node other →
      estimates.getD other none = others.getD other none) (time : Nat) :
    d.StartsBy m estimates node time ↔ d.StartsBy m others node time := by
  have hcomes : ∀ other, m.Waits node other →
      (d.ComesBy m estimates node other time ↔ d.ComesBy m others node other time) := by
    intro other hwaits
    unfold ComesBy
    rw [h other hwaits]
  unfold StartsBy
  cases d.executedAt node with
  | some done => exact Iff.rfl
  | none => exact and_congr_right fun _ => and_congr_right fun _ => forall₂_congr hcomes

/-! ## Estimates that follow from each other -/

/-- Estimates that follow from each other for the nodes that are known; other nodes have
none. -/
structure Coheres (m : Model) (d : Draft) (known : List Nat) (estimates : List (Option Nat)) :
    Prop where
  length_eq : estimates.length = m.chain.nodes
  met_iff : ∀ node ∈ known, ∀ time,
    Met (estimates.getD node none) time ↔ d.StartsBy m estimates node time
  unknown : ∀ node, node ∉ known → estimates.getD node none = none

/-- One more estimate, of a node that none of the known ones waits for. -/
theorem Coheres.set (h : d.Coheres m known estimates) {e : Option Nat}
    (hlt : node < estimates.length) (hearly : ∀ earlier ∈ known, ¬ m.Waits earlier node)
    (hnew : node ∉ known) (hmet : ∀ time, Met e time ↔ d.StartsBy m estimates node time) :
    d.Coheres m (known ++ [node]) (estimates.set node e) := by
  have hkept : ∀ {other}, ¬ m.Waits other node → ∀ time,
      d.StartsBy m (estimates.set node e) other time ↔ d.StartsBy m estimates other time := by
    intro other hnot time
    refine startsBy_congr (fun waited hwaits => ?_) time
    rw [getD_set _ _ _ hlt, if_neg]
    rintro rfl
    exact hnot hwaits
  exact
    { length_eq := (List.length_set).trans h.length_eq
      met_iff := by
        intro other hother time
        rw [getD_set _ _ _ hlt]
        rcases List.mem_append.1 hother with hold | hnow
        · have hne : node ≠ other := fun heq => hnew (heq ▸ hold)
          rw [if_neg hne, h.met_iff other hold, hkept (hearly other hold)]
        · cases List.mem_singleton.1 hnow
          rw [if_pos rfl, hmet, hkept (Model.WellFormed.not_waits_self node)]
      unknown := by
        intro other hother
        rw [List.mem_append, List.mem_singleton, not_or] at hother
        rw [getD_set _ _ _ hlt, if_neg (Ne.symm hother.2), h.unknown other hother.1] }

/-- The estimates of a draft follow from each other. -/
theorem Fits.exists_coheres (h : d.Fits m.chain.nodes m.horizon) (hm : m.WellFormed) :
    ∃ estimates, m.soonestExecutions d = .ok estimates ∧
      Timely m m.ranks.sequence.length estimates ∧ d.Coheres m m.ranks.sequence estimates := by
  have hnever : ∀ node, (List.replicate m.nodes (none : Option Nat)).getD node none = none := by
    intro node
    rw [List.getD_eq_getElem?_getD, List.getElem?_replicate]
    split <;> rfl
  obtain ⟨estimates, hok, _, htimely, hcoheres⟩ :=
    h.soonestExecutions_induct hm (d.Coheres m)
      ⟨List.length_replicate, nofun, fun node _ => hnever node⟩ <| by
      intro known node rest estimates e hsplit hcoheres hlt hmet
      have hearly : ∀ earlier ∈ known, ¬ m.Waits earlier node := by
        have hpair := hm.pairwise_sequence
        rw [hsplit, List.pairwise_append] at hpair
        exact fun earlier hmem => hpair.2.2 earlier hmem node (by simp)
      exact hcoheres.set hlt hearly (hm.not_mem_of_sequence_eq hsplit) hmet
  exact ⟨estimates, hok, htimely, hcoheres⟩

/-- There are no others that do.  The induction is on the rank. -/
theorem Coheres.unique (h : d.Coheres m known estimates) (h' : d.Coheres m known others)
    (hm : m.WellFormed) : estimates = others := by
  have hentry : ∀ rank node, (m.rank node).toNat = rank →
      estimates.getD node none = others.getD node none := by
    intro rank
    induction rank using Nat.strongRecOn with
    | ind rank ih =>
        intro node hrank
        by_cases hmem : node ∈ known
        · refine Met.ext fun time => ?_
          rw [h.met_iff node hmem, h'.met_iff node hmem]
          refine startsBy_congr (fun other hwaits => ih _ ?_ other rfl) time
          have hlower := hwaits.2
          have hpos := hm.rank_nonneg other
          omega
        · rw [h.unknown node hmem, h'.unknown node hmem]
  refine List.ext_getElem (h.length_eq.trans h'.length_eq.symm) fun node hlt hlt' => ?_
  have hsame := hentry _ node rfl
  rwa [List.getD_eq_getElem _ _ hlt, List.getD_eq_getElem _ _ hlt'] at hsame

end Draft

end ChainPropagation
