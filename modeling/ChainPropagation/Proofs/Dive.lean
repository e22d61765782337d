import ChainPropagation.Proofs.Flood
import ChainPropagation.Dive
import ChainPropagation.Options

/-!
# Dives complete when the flood does

Whatever the coin says, a dive meets no fault, and a step of it keeps a draft
that can finish such a draft: the random step is taken only if it does, and the
flooded one always does (`Opens.diveOn_eq`).  None of this depends on the
generator or on the coin.

A coin that is sure to fall on its head makes a dive send what a flood sends.  Then a
step that is taken back is done again in the same way, so that the two ways to make a
step come to the same, also where nothing can finish
(`floodOnce_of_diveOn`).

## Main results

* `dive_completes` — what a dive comes to.
* `dive_exact` — the same for a built model, its obstacle and the verdict.
* `sure_dive_eq_flood` — a dive with a sure coin is the flood.
-/

namespace ChainPropagation

namespace Draft

variable {m : Model} {d e : Draft} {σ : Type}

theorem Consistent.sendIfChosen_eq (h : d.Consistent m) (hm : m.WellFormed) (next : σ → UInt64 × σ)
    (coin : Coin) (s : σ) (link : Nat × Nat) :
    ∃ e s', m.sendIfChosen next coin (d, s) link = .ok (e, s') ∧ Grows m d e := by
  by_cases huseful : d.Useful m link.1 link.2
  · have hasked := (h.decides_isUseful hm _ _).eq_true huseful
    have hsend := h.send_eq huseful.beside
    have hgrows := h.grows_sent huseful
    obtain ⟨owed, howed, _⟩ := h.placed.decides_isOwedAnnouncement hm huseful.beside
    cases owed with
    | true =>
        refine ⟨d.sent link.1 link.2, s, ?_, hgrows⟩
        simp [Model.sendIfChosen, hasked, howed, hsend]
    | false =>
        cases htoss : coin.toss next s with
        | mk head s' =>
            cases head with
            | true =>
                refine ⟨d.sent link.1 link.2, s', ?_, hgrows⟩
                simp [Model.sendIfChosen, hasked, howed, htoss, hsend]
            | false =>
                refine ⟨d, s', ?_, .refl h⟩
                simp [Model.sendIfChosen, hasked, howed, htoss]
  · have hasked := (h.decides_isUseful hm _ _).eq_false huseful
    refine ⟨d, s, ?_, .refl h⟩
    simp [Model.sendIfChosen, hasked]

theorem Consistent.foldlM_sendIfChosen (hm : m.WellFormed) (next : σ → UInt64 × σ) (coin : Coin)
    (links : List (Nat × Nat)) : ∀ (d : Draft) (s : σ), d.Consistent m →
      ∃ e s', links.foldlM (m.sendIfChosen next coin) (d, s) = .ok (e, s') ∧ Grows m d e := by
  induction links with
  | nil =>
      intro d s h
      exact ⟨d, s, rfl, .refl h⟩
  | cons link links ih =>
      intro d s h
      obtain ⟨e, s', hsend, hgrows⟩ := h.sendIfChosen_eq hm next coin s link
      obtain ⟨f, s'', hfold, hmore⟩ := ih e s' hgrows.consistent
      refine ⟨f, s'', ?_, hgrows.trans hmore⟩
      rw [List.foldlM_cons, hsend]
      exact hfold

/-- One step of a dive, from the draft `d` at the beginning of the step: it
meets no fault, and the draft of the next time can finish exactly if `d` can. -/
theorem Opens.diveOn_eq (hm : m.WellFormed) (hopens : Opens m d (d.Ready m) e) (hquiet : d.Quiet)
    (hlt : d.time < m.horizon) (next : σ → UInt64 × σ) (coin : Coin) (s : σ) :
    ∃ f s', m.diveOn next coin e s = .ok (f, s') ∧ f.Consistent m ∧ f.Quiet ∧
      f.time = d.time + 1 ∧ (d.Sound m → f.Sound m) ∧ (f.CanFinish m ↔ d.CanFinish m) := by
  obtain ⟨links, hlinks, _, _⟩ := hopens.consistent.usefulLinks_eq hm
  obtain ⟨tried, s', hfold, hgrows⟩ :=
    hopens.consistent.foldlM_sendIfChosen hm next coin links e s
  have hearly : tried.time < m.horizon := by
    rw [hgrows.time_eq, hopens.time_eq]
    exact hlt
  have hpass := hgrows.consistent.passTime_eq hearly
  have htried := hgrows.consistent.delivered hearly
  have hasked := htried.decides_canFinish hm (quiet_delivered tried)
  by_cases hcan : tried.delivered.CanFinish m
  · refine ⟨tried.delivered, s', ?_, htried, quiet_delivered tried,
      hopens.time_delivered hgrows.toSpreads, ?_, ?_⟩
    · simp [Model.diveOn, Model.diveSends, hlinks, hfold, hpass, hasked.eq_true hcan]
    · exact fun hd => (hgrows.sound (hopens.sound hquiet hd)).delivered hearly
    · exact iff_of_true hcan (hopens.canFinishBy_of_delivered hquiet hgrows.toSpreads hcan)
  · -- the random step is taken back
    obtain ⟨f, hflooded, hflood, hfpass, hf, hstill, htime, hsound⟩ := hopens.flood_eq hm hquiet hlt
    refine ⟨f.delivered, s', ?_, hf, hstill, htime, hsound,
      hopens.canFinishBy_of_delivered hquiet hflood.toSpreads,
      fun hcan => hopens.canFinishBy_delivered hm hflood hcan hlt⟩
    simp [Model.diveOn, Model.diveSends, hlinks, hfold, hpass, hasked.eq_false hcan, hflooded,
      hfpass]

/-- A dive meets no fault and completes exactly if its draft can finish. -/
theorem Consistent.diveFrom_eq (hm : m.WellFormed) (next : σ → UInt64 × σ) (coin : Coin)
    (left : Nat) : ∀ (d : Draft) (s : σ), d.Consistent m → d.Quiet → d.time + left = m.horizon →
    ∃ result s', m.diveFrom next coin left d s = .ok (result, s') ∧
      Completes m d m.horizon result := by
  induction left with
  | zero =>
      intro d s h hquiet hend
      have hnow : d.time = m.horizon := hend
      unfold Model.diveFrom
      obtain ⟨e, hopens, ⟨hends, hbegin⟩ | ⟨hends, hbegin⟩⟩ := h.beginStep_eq hm hquiet
      · rw [hbegin]
        exact ⟨some e.settled, s, rfl, hopens.completes_of_endsHold hquiet hends h.time_le⟩
      · rw [hbegin]
        exact ⟨none, s, rfl, hnow ▸ hopens.completes_none hends⟩
  | succ left ih =>
      intro d s h hquiet hend
      unfold Model.diveFrom
      obtain ⟨e, hopens, ⟨hends, hbegin⟩ | ⟨hends, hbegin⟩⟩ := h.beginStep_eq hm hquiet
      · rw [hbegin]
        exact ⟨some e.settled, s, rfl, hopens.completes_of_endsHold hquiet hends h.time_le⟩
      · obtain ⟨f, s', hstep, hf, hstill, htime, hsound, hcan⟩ :=
          hopens.diveOn_eq hm hquiet (by omega) next coin s
        obtain ⟨result, s'', hrest, hcompletes⟩ := ih f s' hf hstill (by omega)
        refine ⟨result, s'', ?_, hcompletes.of_next hsound hcan⟩
        rw [hbegin]
        simp only [ok_bind, hstep]
        exact hrest

end Draft

namespace Model

variable {m : Model} {σ : Type}

/-- A dive of a model comes to the same as a flood, whatever the coin says. -/
theorem dive_completes (hm : m.WellFormed) (hs : m.Storable) (next : σ → UInt64 × σ)
    (coin : Coin) (s : σ) : ∃ result s', m.dive next coin s = .ok (result, s') ∧
      Draft.Completes m (.start m) m.horizon result := by
  obtain ⟨result, s', hdive, hcompletes⟩ := Draft.Consistent.diveFrom_eq hm next coin m.horizon
    (.start m) s (Draft.consistent_start hs.horizon_lt) (Draft.quiet_start m) (Nat.zero_add _)
  refine ⟨result, s', ?_, hcompletes⟩
  unfold dive
  rw [Draft.blankDraft_eq hs]
  exact hdive

/-- A dive of a model completes exactly if there is a lawful schedule. -/
theorem dive_eq (hm : m.WellFormed) (hs : m.Storable) (next : σ → UInt64 × σ) (coin : Coin)
    (s : σ) : ∃ result s', m.dive next coin s = .ok (result, s') ∧
      (∀ d, result = some d → d.Finished m) ∧
      (result.isSome = true ↔ ∃ s, m.Lawful s) := by
  have hsound := Draft.sound_start hs.horizon_lt
  obtain ⟨result, s', hdive, hcompletes⟩ := dive_completes hm hs next coin s
  exact ⟨result, s', hdive, hcompletes.finished hsound, hcompletes.isSome_iff_lawful hsound hm rfl⟩

end Model

/-- A dive of a built model, whatever its bank of rules, the coin and the random
words.  If there is no obstacle, the dive completes: both endpoints hold
everything, all announcements are made, and no rule objects to the schedule.  If
there is one, the dive comes to nothing. -/
theorem dive_exact {p : Problem} {bank : RuleBank} {m : Model} (h : p.model bank = .ok m)
    {σ : Type} (next : σ → UInt64 × σ) (coin : Coin) (s : σ) :
    ∃ obstacle result s', m.obstacle = .ok obstacle ∧ m.dive next coin s = .ok (result, s') ∧
      (obstacle = none → ∃ d, result = some d ∧ d.endsHoldAll m.chain = .ok true ∧
        m.allAnnounced d = .ok true ∧ m.verdict d.schedule = .ok []) ∧
      (obstacle ≠ none → result = none) := by
  have hm := wellFormed_of_model h
  have hs := storable_of_model h
  have hsound := Draft.sound_start hs.horizon_lt
  obtain ⟨obstacle, hobstacle, hnone, _⟩ := Model.obstacle_eq hm hs
  obtain ⟨result, s', hdive, hcompletes⟩ := Model.dive_completes hm hs next coin s
  have hsome : result.isSome = true ↔ obstacle = none :=
    (hcompletes.isSome_iff_lawful hsound hm rfl).trans hnone.symm
  refine ⟨obstacle, result, s', hobstacle, hdive, fun hclear => ?_, fun hblocked => ?_⟩
  · obtain ⟨d, hd⟩ := Option.isSome_iff_exists.1 (hsome.2 hclear)
    have hlaw := (hcompletes.finished hsound d hd).lawful
    obtain ⟨e, he, hends, _, rfl⟩ := hcompletes.settles d hd
    have hannounced : m.allAnnounced e.settled = .ok true := he.allAnnounced_eq hm hends
    exact ⟨e.settled, hd, (he.fits.decides_endsHoldAll hm).eq_true hends, hannounced,
      Model.verdict_eq_nil_of_lawful hm hs hlaw⟩
  · cases result with
    | none => rfl
    | some d => exact absurd (hsome.1 rfl) hblocked

/-- A dive of the meeting with a fair coin. -/
theorem announcedMeeting_dives :
    meeting.model (RuleBank.standard.add .rankZeroAnnounce) = .ok announcedMeeting ∧
      announcedMeeting.obstacle = .ok none ∧
      ∃ d s', announcedMeeting.dive Xoshiro.next (.below 0x8000000000000000) (.ofSeed 7) =
          .ok (some d, s') ∧
        d.endsHoldAll announcedMeeting.chain = .ok true ∧
        announcedMeeting.allAnnounced d = .ok true ∧
        announcedMeeting.verdict d.schedule = .ok [] := by
  have hbuilt : meeting.model (RuleBank.standard.add .rankZeroAnnounce) = .ok announcedMeeting :=
    rfl
  have hclear : announcedMeeting.obstacle = .ok none := by decide +kernel
  obtain ⟨obstacle, result, s', hobstacle, hdive, hdone, _⟩ :=
    dive_exact hbuilt Xoshiro.next (.below 0x8000000000000000) (.ofSeed 7)
  rw [hclear] at hobstacle
  cases hobstacle
  obtain ⟨d, rfl, hends, hannounced, hvalid⟩ := hdone rfl
  exact ⟨hbuilt, hclear, d, s', hdive, hends, hannounced, hvalid⟩

/-! ## Sure coins -/

/-- A coin that falls on its head, whatever words the generator draws. -/
def Coin.Sure {σ : Type} (next : σ → UInt64 × σ) (coin : Coin) : Prop :=
  ∀ s, (coin.toss next s).1 = true

/-- The coin of a dive with probability 1. -/
theorem Coin.sure_ofProbability_one {σ : Type} (next : σ → UInt64 × σ) :
    (Coin.ofProbability (Options.nearestProbability 1.0)).Sure next := by
  have halways : Coin.ofProbability (Options.nearestProbability 1.0) = .always := rfl
  rw [halways]
  exact fun _ => rfl

namespace Model

variable {m : Model} {d e g : Draft} {σ : Type} {next : σ → UInt64 × σ} {coin : Coin}
  {now later : Draft × σ}

theorem sendIfUseful_of_sendIfChosen (hsure : coin.Sure next) {link : Nat × Nat}
    (h : m.sendIfChosen next coin now link = .ok later) :
    m.sendIfUseful now.1 link = .ok later.1 := by
  obtain ⟨d, s⟩ := now
  obtain ⟨useful, hasked, h⟩ := bind_eq_ok.1 h
  unfold sendIfUseful
  rw [hasked]
  cases useful with
  | false =>
      cases h
      rfl
  | true =>
      obtain ⟨owed, _, h⟩ := bind_eq_ok.1 h
      -- the link is sent without asking the coin, or by the coin
      cases owed with
      | true =>
          obtain ⟨sent, hsend, h⟩ := bind_eq_ok.1 h
          cases h
          exact hsend
      | false =>
          have hhead := hsure s
          cases htoss : coin.toss next s with
          | mk head after =>
              rw [htoss] at hhead
              cases hhead
              simp only [htoss] at h
              obtain ⟨sent, hsend, h⟩ := bind_eq_ok.1 h
              cases h
              exact hsend

theorem foldlM_sendIfUseful_of_sendIfChosen (hsure : coin.Sure next) (links : List (Nat × Nat)) :
    ∀ now : Draft × σ, links.foldlM (m.sendIfChosen next coin) now = .ok later →
      links.foldlM m.sendIfUseful now.1 = .ok later.1 := by
  induction links with
  | nil =>
      intro now h
      cases h
      rfl
  | cons link links ih =>
      intro now h
      rw [List.foldlM_cons] at h
      obtain ⟨between, hfirst, hrest⟩ := bind_eq_ok.1 h
      rw [List.foldlM_cons, sendIfUseful_of_sendIfChosen hsure hfirst]
      exact ih between hrest

/-- Whether the step is kept or taken back, it is the flooded one. -/
theorem floodOnce_of_diveOn (hsure : coin.Sure next) {s s' : σ}
    (h : m.diveOn next coin e s = .ok (g, s')) :
    ∃ f, m.floodOnce e = .ok f ∧ f.passTime = .ok g := by
  obtain ⟨tried, hsends, h⟩ := bind_eq_ok.1 h
  obtain ⟨passed, hpass, h⟩ := bind_eq_ok.1 h
  obtain ⟨can, _, h⟩ := bind_eq_ok.1 h
  cases can with
  | true =>
      cases h
      obtain ⟨links, hlinks, hfold⟩ := bind_eq_ok.1 hsends
      refine ⟨tried.1, ?_, hpass⟩
      rw [floodOnce, hlinks]
      exact foldlM_sendIfUseful_of_sendIfChosen hsure links (e, s) hfold
  | false =>
      obtain ⟨f, hflood, h⟩ := bind_eq_ok.1 h
      obtain ⟨flooded, hpass, h⟩ := bind_eq_ok.1 h
      cases h
      exact ⟨f, hflood, hpass⟩

theorem floodFrom_of_diveFrom (hsure : coin.Sure next) {result : Option Draft} (left : Nat) :
    ∀ (d : Draft) (s s' : σ), m.diveFrom next coin left d s = .ok (result, s') →
      m.floodFrom left d = .ok result := by
  induction left with
  | zero =>
      intro d s s' h
      obtain ⟨opening, hbegin, h⟩ := bind_eq_ok.1 h
      cases opening with
      | finished f =>
          cases h
          exact floodFrom_of_finished hbegin 0
      | continuing e =>
          cases h
          exact floodFrom_zero_of_continuing hbegin
  | succ left ih =>
      intro d s s' h
      obtain ⟨opening, hbegin, h⟩ := bind_eq_ok.1 h
      cases opening with
      | finished f =>
          cases h
          exact floodFrom_of_finished hbegin (left + 1)
      | continuing e =>
          obtain ⟨⟨g, between⟩, hon, hrest⟩ := bind_eq_ok.1 h
          obtain ⟨f, hflood, hpass⟩ := floodOnce_of_diveOn hsure hon
          rw [floodFrom_succ_of_continuing hbegin hflood hpass]
          exact ih g between s' hrest

theorem flood_of_dive (hsure : coin.Sure next) {result : Option Draft} {s s' : σ}
    (h : m.dive next coin s = .ok (result, s')) : m.flood = .ok result := by
  obtain ⟨blank, hblank, h⟩ := bind_eq_ok.1 h
  rw [flood, hblank]
  exact floodFrom_of_diveFrom hsure m.horizon blank s s' h

end Model

/-- A dive of a built model with a sure coin comes to the draft of the flood, or like the
flood to none, under every bank and whatever words are drawn.  The coin of probability 1
is sure. -/
theorem sure_dive_eq_flood {p : Problem} {bank : RuleBank} {m : Model} (h : p.model bank = .ok m)
    {σ : Type} (next : σ → UInt64 × σ) (s : σ) : ∃ result, m.flood = .ok result ∧
      (∀ coin : Coin, coin.Sure next → ∃ s', m.dive next coin s = .ok (result, s')) ∧
      ∃ s', m.dive next (.ofProbability (Options.nearestProbability 1.0)) s =
        .ok (result, s') := by
  have hm := wellFormed_of_model h
  have hs := storable_of_model h
  obtain ⟨result, hflood, _⟩ := Model.flood_eq hm hs
  have hdives : ∀ coin : Coin, coin.Sure next → ∃ s', m.dive next coin s = .ok (result, s') := by
    intro coin hsure
    obtain ⟨dived, s', hdive, _⟩ := Model.dive_completes hm hs next coin s
    have hsame := Model.flood_of_dive hsure hdive
    rw [hflood] at hsame
    cases hsame
    exact ⟨s', hdive⟩
  exact ⟨result, hflood, hdives, hdives _ (Coin.sure_ofProbability_one next)⟩

/-- The meeting, dived with probability 1. -/
theorem announcedMeeting_dives_surely :
    meeting.model (RuleBank.standard.add .rankZeroAnnounce) = .ok announcedMeeting ∧
      ∃ result s', announcedMeeting.flood = .ok result ∧
        announcedMeeting.dive Xoshiro.next
          (.ofProbability (Options.nearestProbability 1.0)) (.ofSeed 7) = .ok (result, s') := by
  have hbuilt : meeting.model (RuleBank.standard.add .rankZeroAnnounce) = .ok announcedMeeting :=
    rfl
  obtain ⟨result, hflood, _, s', hdive⟩ := sure_dive_eq_flood hbuilt Xoshiro.next (.ofSeed 7)
  exact ⟨hbuilt, result, s', hflood, hdive⟩

end ChainPropagation
