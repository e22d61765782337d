import Mathlib.Logic.Relation
import ChainPropagation.Proofs.Flood

/-!
# What is allowed breaks no rule

While a draft is made, `Model.isReady` says whether a node may execute and
`Model.canSend` whether a message may be sent.  Neither looks at the rules: the
verdict comes later, and it judges a table that is made by replaying the
schedule.  Yet whoever asks first breaks no rule.  A run may skip nodes that are
ready and send what is of no use; as long as it executes and sends what is
allowed, and nothing twice at a time, its draft stays sound (`Moves.sound`).

So its schedule is orderly, and all that the verdict can find is that something
was left undone (`Orderly.reportsOnly_verdict`): a node that did not execute, or
a result that did not get to an endpoint.

Main result: `verdict_of_moves`.
-/

namespace ChainPropagation

namespace Draft

/-! ## Runs -/

/-- Nodes execute one after another, each when it may. -/
inductive Executes (m : Model) : List Nat → Draft → Draft → Prop where
  | nil {d : Draft} : Executes m [] d d
  | cons {node : Nat} {nodes : List Nat} {d e f : Draft} (ready : m.isReady d node = .ok true)
      (executes : d.execute node = .ok e) (rest : Executes m nodes e f) :
      Executes m (node :: nodes) d f

/-- Messages are sent along links one after another, each when it may be. -/
inductive Sends (m : Model) : List (Nat × Nat) → Draft → Draft → Prop where
  | nil {d : Draft} : Sends m [] d d
  | cons {link : Nat × Nat} {links : List (Nat × Nat)} {d e f : Draft}
      (allowed : m.canSend d link.1 link.2 = .ok true) (sends : d.send link.1 link.2 = .ok e)
      (rest : Sends m links e f) : Sends m (link :: links) d f

/-- One time of a run: some nodes execute, the row is set down, messages are sent
along some links, and time passes. -/
inductive Moves (m : Model) (d g : Draft) : Prop where
  | step {e noted f : Draft} {nodes : List Nat} {links : List (Nat × Nat)}
      (executes : Executes m nodes d e) (notes : e.noteRow = .ok noted)
      (sends : Sends m links noted f) (once : links.Nodup) (passes : f.passTime = .ok g) :
      Moves m d g

variable {m : Model} {d e f g : Draft} {nodes : List Nat} {links : List (Nat × Nat)}

/-! ## What a run preserves -/

theorem Executes.opens (hexec : Executes m nodes d e) (hm : m.WellFormed) (h : d.Consistent m) :
    Opens m d (· ∈ nodes) e := by
  induction hexec with
  | nil => exact .refl h
  | @cons node nodes d e f ready executes _ ih =>
      have hready : d.Ready m node := (decides_isReady hm h.fits node).of_eq_true ready
      have hstep : d.execute node = .ok (d.executing node) :=
        execute_eq (h.lt_executed hready) (h.lt_held hready) (hready.lt_capacity hm) hready.fresh
      rw [executes] at hstep
      cases hstep
      exact (ih (h.executing hm hready)).of_executing h hm hready

/-- Messages that may be sent keep a draft consistent, even if they are repeated. -/
theorem Sends.spreads (hsends : Sends m links d f) (h : d.Consistent m) : Spreads m d f := by
  induction hsends with
  | nil => exact .refl h
  | cons allowed sends _ ih =>
      obtain ⟨hbeside, hsome⟩ := h.canSend_iff.1 allowed
      have hspreads := h.spreads_sent hbeside hsome
      rw [← eq_sent_of_send sends] at hspreads
      exact hspreads.trans (ih hspreads.consistent)

/-- They keep it sound if each link is used once, and was not used before at the
present time. -/
theorem Sends.sound (hsends : Sends m links d f) (h : d.Sound m) (honce : links.Nodup)
    (hfresh : ∀ link ∈ links, ∀ a ∈ d.messages.toList, a.slot ≠ (link.1, link.2, d.time)) :
    f.Sound m := by
  induction hsends with
  | nil => exact h
  | @cons link links d e f allowed sends _ ih =>
      obtain ⟨hnew, hrest⟩ := List.nodup_cons.1 honce
      obtain ⟨hbeside, hsome⟩ := h.canSend_iff.1 allowed
      have hsound := h.sent hbeside hsome (hfresh link List.mem_cons_self)
      rw [← eq_sent_of_send sends] at hsound
      -- the links that follow are neither this one nor one used before
      apply ih hsound hrest
      intro other hother a ha hslot
      rw [eq_sent_of_send sends] at ha hslot
      rcases mem_messages_sent.1 ha with hold | rfl
      · exact hfresh other (List.mem_cons_of_mem _ hother) a hold hslot
      · have hsame : link = other := by simpa [Message.slot, Prod.ext_iff] using hslot
        exact hnew (hsame ▸ hother)

theorem Moves.sound (hstep : Moves m d g) (hm : m.WellFormed) (h : d.Sound m)
    (hquiet : d.Quiet) : g.Sound m ∧ g.Quiet := by
  cases hstep with
  | @step e noted f nodes links executes notes sends once passes =>
      obtain rfl := eq_noted_of_noteRow notes
      have hopens := (executes.opens hm h.toConsistent).noted
      have hsound := hopens.sound hquiet h
      -- every message so far left at an earlier time
      have hfresh : ∀ link ∈ links, ∀ a ∈ e.noted.messages.toList,
          a.slot ≠ (link.1, link.2, e.noted.time) := by
        intro link _ a ha hslot
        have hearlier := hsound.sent_before (hopens.quiet hquiet) a ha
        have hnow : a.time = e.noted.time := congrArg (fun slot => slot.2.2) hslot
        omega
      have hf := sends.sound hsound once hfresh
      obtain ⟨hlt, rfl⟩ := eq_delivered_of_passTime passes
      rw [hf.horizon_eq] at hlt
      exact ⟨hf.delivered hlt, quiet_delivered f⟩

theorem sound_of_moves (hmoves : Relation.ReflTransGen (Moves m) d g) (hm : m.WellFormed)
    (h : d.Sound m) (hquiet : d.Quiet) : g.Sound m ∧ g.Quiet := by
  induction hmoves with
  | refl => exact ⟨h, hquiet⟩
  | tail _ step ih => exact step.sound hm ih.1 ih.2

end Draft

/-! ## What is left to report -/

/-- A check that meets no fault and finds breaches of one kind only. -/
def ReportsOnly (check : Checked (List Breach)) (kind : Breach → Prop) : Prop :=
  ∃ breaches, check = .ok breaches ∧ ∀ b ∈ breaches, kind b

namespace ReportsOnly

variable {kind : Breach → Prop}

theorem of_nil {check : Checked (List Breach)} {fine : Prop} (h : Reports check fine)
    (hfine : fine) : ReportsOnly check kind :=
  ⟨[], h.eq_nil_iff.2 hfine, nofun⟩

/-- Several checks, one after another. -/
theorem mapM_flatten {α : Type} {check : α → Checked (List Breach)} {entries : List α}
    (h : ∀ a ∈ entries, ReportsOnly (check a) kind) :
    ReportsOnly (do return (← entries.mapM check).flatten) kind := by
  induction entries with
  | nil => exact ⟨[], rfl, nofun⟩
  | cons a entries ih =>
      obtain ⟨own, hown, hkind⟩ := h a List.mem_cons_self
      obtain ⟨others, hothers, hrest⟩ := ih fun b hb => h b (List.mem_cons_of_mem a hb)
      obtain ⟨lists, hlists, hflat⟩ := bind_eq_ok.1 hothers
      cases hflat
      refine ⟨own ++ lists.flatten, ?_, ?_⟩
      · rw [List.mapM_cons, hown, hlists]
        rfl
      · intro b hb
        rcases List.mem_append.1 hb with hb | hb
        · exact hkind b hb
        · exact hrest b hb

end ReportsOnly

namespace Model

variable {m : Model} {s : Schedule} {p : Possession}

/-- A breach that says that something was not done: results are missing at an
endpoint, or a node did not execute. -/
def Undone (m : Model) (s : Schedule) (b : Breach) : Prop :=
  b.rule = .boundaryCompleteness ∨
    (b.rule = .taskExecution ∧ m.chain.isInner b.node = true ∧
      ∀ e ∈ s.executions, e.node ≠ b.node)

theorem reportsOnly_boundaryBreaches (hm : m.WellFormed) (hp : m.Covers p) (s : Schedule) :
    ReportsOnly (m.boundaryBreaches p) (m.Undone s) := by
  unfold boundaryBreaches
  rw [Chain.resultSetChecked_eq hm.two_le hm.le_capacity, Chain.farEndChecked_eq hm.two_le]
  refine ReportsOnly.mapM_flatten fun endpoint hmem => ?_
  rw [hp.read_eq (Nat.le_refl _) (lt_of_mem_ends hm hmem)]
  refine ⟨_, rfl, fun b hb => .inl ?_⟩
  split at hb
  · cases hb
  · rw [List.mem_singleton.1 hb]
    rfl

namespace Orderly

/-- The executions that there are were allowed, so only those are at fault that
there are not. -/
theorem reportsOnly_taskBreaches (h : m.Orderly s) (hm : m.WellFormed) :
    ReportsOnly (m.taskBreaches s) (m.Undone s) := by
  refine ⟨_, taskBreaches_eq hm s, fun b hb => .inr ?_⟩
  rcases List.mem_append.1 hb with hb | hb
  · obtain ⟨e, he, hb⟩ := List.mem_flatMap.1 hb
    rw [(executionBreaches_eq_nil_iff hm e).2 ⟨h.inner e he, h.in_time e he⟩] at hb
    cases hb
  · obtain ⟨node, hnode, hcount⟩ := List.mem_filterMap.1 hb
    unfold countBreach at hcount
    by_cases hone : s.executions.countP (·.node == node) = 1
    · rw [if_pos hone] at hcount
      cases hcount
    · rw [if_neg hone] at hcount
      cases hcount
      have hatmost := h.once node
      have hnone : s.executions.countP (·.node == node) = 0 := by omega
      refine ⟨rfl, Chain.mem_inner.1 hnode, fun e he hat => ?_⟩
      exact List.countP_eq_zero.1 hnone e he (beq_iff_eq.2 hat)

/-- What a rule can find about an orderly schedule; the rule on announcements may
miss one. -/
theorem reportsOnly_breachesOf (h : m.Orderly s) (hm : m.WellFormed) {rule : Rule}
    (hannounce : rule ≠ .rankZeroAnnounce) :
    ReportsOnly (m.breachesOf s (s.table m.nodes m.horizon) rule) (m.Undone s) := by
  have hcovers := m.covers_table s
  cases rule with
  | taskExecution => exact h.reportsOnly_taskBreaches hm
  | boundaryCompleteness => exact reportsOnly_boundaryBreaches hm hcovers s
  | rankZeroAnnounce => exact absurd rfl hannounce
  | _ => exact .of_nil (reports_breachesOf hm hcovers s _) (h.satisfies hm nofun nofun nofun)

theorem reportsOnly_verdict (h : m.Orderly s) (hm : m.WellFormed) (hs : m.Storable)
    (hbank : .rankZeroAnnounce ∉ m.bank.rules) : ReportsOnly (m.verdict s) (m.Undone s) := by
  rw [verdict, replay_eq hm hs, ok_bind, judge, if_pos ⟨rfl, rfl⟩]
  refine ReportsOnly.mapM_flatten fun rule hrule => ?_
  exact h.reportsOnly_breachesOf hm fun heq => hbank (heq ▸ hrule)

end Orderly

end Model

/-- A run of a built model in which every execution and every message was allowed
when it happened, and no link was used twice at a time.  If both endpoints hold
everything in the end, no rule objects to its schedule, whatever the bank.
Otherwise, unless the bank asks for announcements, all that is reported is that
endpoints miss results and that nodes between them never executed. -/
theorem verdict_of_moves {p : Problem} {bank : RuleBank} {m : Model} (h : p.model bank = .ok m)
    {blank last e d : Draft} {nodes : List Nat} (hblank : m.blankDraft = .ok blank)
    (hmoves : Relation.ReflTransGen (Draft.Moves m) blank last)
    (hexec : Draft.Executes m nodes last e) (hsettle : e.settle = .ok d) :
    ∃ complete breaches, d.endsHoldAll m.chain = .ok complete ∧
      m.verdict d.schedule = .ok breaches ∧ (complete = true → breaches = []) ∧
      (complete = false → .rankZeroAnnounce ∉ bank.rules → ∀ b ∈ breaches,
        b.rule = .boundaryCompleteness ∨
          (b.rule = .taskExecution ∧ m.chain.isInner b.node = true ∧
            d.executedAt b.node = none)) := by
  have hm := wellFormed_of_model h
  have hs := storable_of_model h
  have hstart := Draft.blankDraft_eq hs
  rw [hblank] at hstart
  cases hstart
  obtain ⟨hlast, hquiet⟩ :=
    Draft.sound_of_moves hmoves hm (Draft.sound_start hs.horizon_lt) (Draft.quiet_start m)
  have he : e.Sound m := (hexec.opens hm hlast.toConsistent).sound hquiet hlast
  obtain rfl := Draft.eq_settled_of_settle hsettle
  obtain ⟨complete, hcomplete, hends⟩ := he.fits.decides_endsHoldAll hm
  rw [Draft.schedule_settled, Draft.endsHoldAll_settled]
  by_cases hall : e.EndsHold m
  · refine ⟨complete, [], hcomplete, ?_, fun _ => rfl, nofun⟩
    exact Model.verdict_eq_nil_of_lawful hm hs (he.lawful hall)
  -- an announcement may be missing too, and then there is nothing to be shown
  · by_cases hbank : .rankZeroAnnounce ∈ bank.rules
    · obtain ⟨breaches, hverdict, _⟩ := Model.reports_verdict hm hs e.schedule
      exact ⟨complete, breaches, hcomplete, hverdict, fun hyes => absurd (hends.1 hyes) hall,
        fun _ hnot => absurd hbank hnot⟩
    · rw [← bank_of_model h] at hbank
      obtain ⟨breaches, hverdict, hkind⟩ := he.orderly.reportsOnly_verdict hm hs hbank
      refine ⟨complete, breaches, hcomplete, hverdict, fun hyes => absurd (hends.1 hyes) hall, ?_⟩
      intro _ _ b hb
      rcases hkind b hb with hmissing | ⟨htask, hinner, hnever⟩
      · exact .inl hmissing
      · refine .inr ⟨htask, hinner, ?_⟩
        show e.executedAt b.node = none
        cases hdone : e.executedAt b.node with
        | none => rfl
        | some time =>
            have hlisted : ⟨b.node, time⟩ ∈ e.schedule.executions :=
              (Draft.schedule_perm e).1.mem_iff.1 (he.mem_events.2 hdone)
            exact absurd rfl (hnever _ hlisted)

/-- A run of the meeting that leaves node 3 out.  So the node in the middle waits
in vain, and the endpoints never hold everything. -/
theorem unfinishedMeeting_judged : ∃ last d,
    meeting.model .standard = .ok meetingModel ∧
      meetingModel.blankDraft = .ok (.start meetingModel) ∧
      Relation.ReflTransGen (Draft.Moves meetingModel) (.start meetingModel) last ∧
      Draft.Executes meetingModel [] last last ∧ last.settle = .ok d ∧
      d.endsHoldAll meetingModel.chain = .ok false ∧
      ∃ breaches, meetingModel.verdict d.schedule = .ok breaches ∧ ∀ b ∈ breaches,
        b.rule = .boundaryCompleteness ∨
          (b.rule = .taskExecution ∧ meetingModel.chain.isInner b.node = true ∧
            d.executedAt b.node = none) := by
  have hbuilt : meeting.model .standard = .ok meetingModel := rfl
  obtain ⟨last, hmoves, hends⟩ : ∃ last, Draft.Moves meetingModel (.start meetingModel) last ∧
      last.settled.endsHoldAll meetingModel.chain = .ok false :=
    ⟨_, @Draft.Moves.step _ _ _ _ _ _ [1] [(1, 2), (1, 0)] (.cons rfl rfl .nil) rfl
      (.cons rfl rfl (.cons rfl rfl .nil)) (by decide) rfl, by decide +kernel⟩
  have hrun := Relation.ReflTransGen.single hmoves
  obtain ⟨hsound, hquiet⟩ := Draft.sound_of_moves hrun (wellFormed_of_model hbuilt)
    (Draft.sound_start (storable_of_model hbuilt).horizon_lt) (Draft.quiet_start meetingModel)
  have hsettle := hsound.settle_eq hquiet
  obtain ⟨complete, breaches, hcomplete, hverdict, _, hkind⟩ :=
    verdict_of_moves hbuilt rfl hrun .nil hsettle
  rw [hends] at hcomplete
  cases hcomplete
  exact ⟨last, last.settled, hbuilt, rfl, hrun, .nil, hsettle, hends, breaches, hverdict,
    hkind rfl (by decide)⟩

end ChainPropagation
