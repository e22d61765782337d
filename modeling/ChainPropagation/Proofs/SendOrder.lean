import ChainPropagation.Proofs.Recording
import ChainPropagation.Proofs.SendRules

/-!
# Messages of one step in any order

The links that are worth sending along are listed once, as a step begins, and each is
decided in the light of the messages before it.  Nothing is lost by that: a message
tells its receiver something and may announce its sender, but it does not change what
any node holds now.  So what is of no use as the step begins is of no use later in it
(`Useful.of_sentAll`), whatever is sent in between.

For the same reason it is of no account in which order messages are sent.  Each carries
what it would carry anyway, and what is on its way is the union of them.  Only the
list of messages shows the order, and only until it is put in order: two messages of
one time that go the same way are the same message.  `Draft.Alike` says this of two
drafts in a form that all further operations preserve (`Alike.conclude`).

Main result: `send_order_irrelevant`.
-/

namespace ChainPropagation

/-! ## Computations side by side -/

/-- Two computations that come to related results, or meet the same fault. -/
inductive Checked.Matches {α : Type} (related : α → α → Prop) : Checked α → Checked α → Prop where
  | ok {a b : α} (h : related a b) : Matches related (.ok a) (.ok b)
  | error (f : Fault) : Matches related (.error f) (.error f)

namespace Checked.Matches

variable {α β : Type} {related : α → α → Prop} {x y : Checked α}

theorem bind {after : β → β → Prop} {next : α → Checked β} (h : Matches related x y)
    (hnext : ∀ a b, related a b → Matches after (next a) (next b)) :
    Matches after (x >>= next) (y >>= next) := by
  cases h with
  | ok hab => exact hnext _ _ hab
  | error f => exact .error f

/-- After one and the same computation. -/
theorem after_same {first : Checked β} {next next' : β → Checked α}
    (h : ∀ b, Matches related (next b) (next' b)) :
    Matches related (first >>= next) (first >>= next') := by
  cases first with
  | ok b => exact h b
  | error f => exact .error f

theorem foldlM {step : α → β → Checked α}
    (hstep : ∀ a b entry, related a b → Matches related (step a entry) (step b entry))
    (entries : List β) : ∀ a b, related a b →
      Matches related (entries.foldlM step a) (entries.foldlM step b) := by
  induction entries with
  | nil => exact fun a b hab => .ok hab
  | cons entry entries ih =>
      intro a b hab
      rw [List.foldlM_cons, List.foldlM_cons]
      exact (hstep a b entry hab).bind ih

/-- What is the same for related results. -/
theorem map_eq {view : α → β} (h : Matches related x y)
    (hview : ∀ a b, related a b → view a = view b) : x.map view = y.map view := by
  cases h with
  | ok hab => exact congrArg Except.ok (hview _ _ hab)
  | error f => rfl

end Checked.Matches

namespace Draft

variable {m : Model} {d e : Draft} {links links' : List (Nat × Nat)}
  {sender receiver node result : Nat}

/-! ## Several messages -/

/-- Messages are sent along links, one after another. -/
def sendAll (d : Draft) (links : List (Nat × Nat)) : Checked Draft :=
  links.foldlM (fun d link => d.send link.1 link.2) d

/-- The draft after messages along links. -/
def sentAll (d : Draft) (links : List (Nat × Nat)) : Draft :=
  links.foldl (fun d link => d.sent link.1 link.2) d

theorem sentAll_cons (d : Draft) (link : Nat × Nat) (links : List (Nat × Nat)) :
    d.sentAll (link :: links) = (d.sent link.1 link.2).sentAll links := rfl

/-- Messages concern what is on its way and the list of messages, and nothing else. -/
theorem sentAll_same (d : Draft) (links : List (Nat × Nat)) : d.sentAll links =
    { d with inbox := (d.sentAll links).inbox, messages := (d.sentAll links).messages } := by
  induction links generalizing d with
  | nil => rfl
  | cons link links ih => exact ih (d.sent link.1 link.2)

theorem holding_sentAll (d : Draft) (links : List (Nat × Nat)) (node : Nat) :
    (d.sentAll links).holding node = d.holding node := by
  rw [sentAll_same]
  rfl

theorem size_inbox_sentAll (d : Draft) (links : List (Nat × Nat)) :
    (d.sentAll links).inbox.size = d.inbox.size := by
  induction links generalizing d with
  | nil => rfl
  | cons link links ih => rw [sentAll_cons, ih, size_inbox_sent]

/-- Each message carries what its sender held before all of them. -/
theorem messages_sentAll (d : Draft) (links : List (Nat × Nat)) :
    (d.sentAll links).messages.toList =
      d.messages.toList ++ links.map fun link => d.offer link.1 link.2 := by
  induction links generalizing d with
  | nil => exact (List.append_nil _).symm
  | cons link links ih =>
      rw [sentAll_cons, ih, messages_sent, List.append_assoc]
      rfl

theorem contains_arriving_sentAll (hlinks : ∀ link ∈ links, link.2 < d.inbox.size) :
    ((d.sentAll links).arriving node).contains result = true ↔
      (d.arriving node).contains result = true ∨
        ∃ link ∈ links, link.2 = node ∧ (d.holding link.1).contains result = true := by
  induction links generalizing d with
  | nil => simp [sentAll]
  | cons link links ih =>
      have hfirst : link.2 < d.inbox.size := hlinks link List.mem_cons_self
      have hothers : ∀ other ∈ links, other.2 < (d.sent link.1 link.2).inbox.size := by
        intro other hother
        rw [size_inbox_sent]
        exact hlinks other (List.mem_cons_of_mem _ hother)
      rw [sentAll_cons, ih hothers, arriving_sent d node hfirst]
      simp only [holding_sent, List.mem_cons, exists_eq_or_imp]
      by_cases hto : link.2 = node
      · rw [if_pos hto, NodeSet.contains_union, Bool.or_eq_true, or_assoc]
        simp only [hto, true_and]
      · rw [if_neg hto]
        simp only [hto, false_and, false_or]

/-- Messages between nodes of the chain meet no fault. -/
theorem sendAll_eq (hlinks : ∀ link ∈ links, link.1 < d.held.size ∧ link.2 < d.inbox.size) :
    d.sendAll links = .ok (d.sentAll links) := by
  induction links generalizing d with
  | nil => rfl
  | cons link links ih =>
      obtain ⟨hsender, hreceiver⟩ := hlinks link List.mem_cons_self
      have hothers : ∀ other ∈ links, other.1 < (d.sent link.1 link.2).held.size ∧
          other.2 < (d.sent link.1 link.2).inbox.size := by
        intro other hother
        rw [size_inbox_sent]
        exact hlinks other (List.mem_cons_of_mem _ hother)
      rw [sendAll, List.foldlM_cons, send_eq_sent hsender hreceiver, ok_bind]
      exact ih hothers

theorem Consistent.sizes (h : d.Consistent m) (hlinks : ∀ link ∈ links, link ∈ m.chain.links) :
    ∀ link ∈ links, link.1 < d.held.size ∧ link.2 < d.inbox.size := by
  intro link hlink
  obtain ⟨hsender, hreceiver, _⟩ := Chain.sideBySide_iff.1 (Chain.mem_links.1 (hlinks link hlink))
  rw [h.size_held, h.size_inbox]
  exact ⟨hsender, hreceiver⟩

/-! ## What is of use later in a step -/

/-- Messages leave the tables of a draft as large as they were. -/
theorem Fits.sentAll {nodes horizon : Nat} (h : d.Fits nodes horizon) (links : List (Nat × Nat)) :
    (d.sentAll links).Fits nodes horizon := by
  induction links generalizing d with
  | nil => exact h
  | cons link links ih => exact ih (h.sent link.1 link.2)

theorem Consistent.placed_sentAll (h : d.Consistent m)
    (hlinks : ∀ link ∈ links, link ∈ m.chain.links) : (d.sentAll links).Placed m :=
  { h.fits.sentAll links with
    receiver_lt := by
      intro a ha
      rw [messages_sentAll, List.mem_append] at ha
      rcases ha with hold | hnew
      · exact h.placed.receiver_lt a hold
      · obtain ⟨link, hlink, rfl⟩ := List.mem_map.1 hnew
        exact (Chain.sideBySide_iff.1 (Chain.mem_links.1 (hlinks link hlink))).2.1 }

/-- What is worth sending after some messages was so before them. -/
theorem Useful.of_sentAll (huseful : (d.sentAll links).Useful m sender receiver)
    (hlinks : ∀ link ∈ links, link.2 < d.inbox.size) : d.Useful m sender receiver where
  beside := huseful.beside
  some_held := by
    obtain ⟨result, hheld⟩ := huseful.some_held
    rw [holding_sentAll] at hheld
    exact ⟨result, hheld⟩
  serves := by
    rcases huseful.serves with ⟨result, hheld, hnew⟩ | ⟨hrule, hzero, hpos, hnever⟩
    · rw [holding_sentAll] at hheld
      refine .inl ⟨result, hheld, fun hknown => hnew ?_⟩
      rw [contains_holdingNext, holding_sentAll, contains_arriving_sentAll hlinks]
      rcases contains_holdingNext.1 hknown with hholds | hcomes
      · exact .inl hholds
      · exact .inr (.inl hcomes)
    · refine .inr ⟨hrule, hzero, hpos, ?_⟩
      rintro ⟨a, ha, hannounces⟩
      refine hnever ⟨a, ?_, hannounces⟩
      rw [messages_sentAll]
      exact List.mem_append_left _ ha

/-- What is worth sending after some messages is so after them in another order. -/
theorem Useful.reordered (huseful : (d.sentAll links).Useful m sender receiver)
    (hperm : links.Perm links') (hlinks : ∀ link ∈ links, link.2 < d.inbox.size) :
    (d.sentAll links').Useful m sender receiver := by
  have hlinks' : ∀ link ∈ links', link.2 < d.inbox.size := fun link hlink =>
    hlinks link (hperm.mem_iff.2 hlink)
  have hnext : ∀ result, ((d.sentAll links').holdingNext receiver).contains result = true ↔
      ((d.sentAll links).holdingNext receiver).contains result = true := by
    intro result
    simp only [contains_holdingNext, holding_sentAll, contains_arriving_sentAll hlinks,
      contains_arriving_sentAll hlinks', hperm.mem_iff]
  have howes : (d.sentAll links').Owes m sender receiver ↔
      (d.sentAll links).Owes m sender receiver := by
    simp only [Owes, Announced, messages_sentAll, List.mem_append, (hperm.map _).mem_iff]
  have hsome := huseful.some_held
  have hserves := huseful.serves
  rw [holding_sentAll] at hsome hserves
  refine ⟨huseful.beside, ?_, ?_⟩
  · rw [holding_sentAll]
    exact hsome
  · rw [holding_sentAll, howes]
    simp only [hnext]
    exact hserves

/-- What is worth sending does not depend on the order of the messages before. -/
theorem useful_sentAll_iff (hperm : links.Perm links')
    (hlinks : ∀ link ∈ links, link.2 < d.inbox.size) :
    (d.sentAll links).Useful m sender receiver ↔ (d.sentAll links').Useful m sender receiver :=
  ⟨fun h => h.reordered hperm hlinks, fun h => h.reordered hperm.symm fun link hlink =>
    hlinks link (hperm.mem_iff.2 hlink)⟩

/-! ## What is left of the order -/

/-- Two drafts that differ at most in the order of messages that sorting does not
keep anyway, whatever is sent later. -/
inductive Alike (d : Draft) : Draft → Prop where
  | mk (messages : Array Message)
      (sorted_eq : ∀ later, sorted Message.precedes (d.messages.toList ++ later) =
        sorted Message.precedes (messages.toList ++ later)) :
      Alike d { d with messages }

namespace Alike

theorem execute (h : d.Alike e) (node : Nat) :
    Checked.Matches Alike (d.execute node) (e.execute node) := by
  cases h with
  | mk messages sorted_eq =>
      refine Checked.Matches.after_same fun executed => ?_
      cases executed with
      | some time => exact .error _
      | none => exact Checked.Matches.after_same fun held => .ok (.mk messages sorted_eq)

theorem noteRow (h : d.Alike e) : Checked.Matches Alike d.noteRow e.noteRow := by
  cases h with
  | mk messages sorted_eq =>
      exact Checked.Matches.after_same fun table => .ok (.mk messages sorted_eq)

/-- The next message joins both lists at their ends. -/
theorem sent (h : d.Alike e) (sender receiver : Nat) :
    (d.sent sender receiver).Alike (e.sent sender receiver) := by
  cases h with
  | mk messages sorted_eq =>
      refine .mk (messages.push (d.offer sender receiver)) fun later => ?_
      rw [messages_sent, Array.toList_push, List.append_assoc, List.append_assoc]
      exact sorted_eq _

theorem send (h : d.Alike e) (sender receiver : Nat) :
    Checked.Matches Alike (d.send sender receiver) (e.send sender receiver) := by
  have hsent := h.sent sender receiver
  cases h with
  | mk messages sorted_eq =>
      unfold Draft.send
      by_cases hsender : sender < d.held.size
      · by_cases hreceiver : receiver < d.inbox.size
        · simp only [if_pos hsender, if_pos hreceiver]
          exact .ok hsent
        · simp only [if_pos hsender, if_neg hreceiver]
          exact .error _
      · simp only [if_neg hsender]
        exact .error _

theorem passTime (h : d.Alike e) : Checked.Matches Alike d.passTime e.passTime := by
  cases h with
  | mk messages sorted_eq =>
      unfold Draft.passTime
      by_cases hleft : d.time < d.horizon
      · simp only [if_pos hleft]
        exact Checked.Matches.after_same fun next => .ok (.mk messages sorted_eq)
      · simp only [if_neg hleft]
        exact .error _

theorem settle (h : d.Alike e) : Checked.Matches Alike d.settle e.settle := by
  cases h with
  | mk messages sorted_eq =>
      unfold Draft.settle
      by_cases hquiet : d.inbox.all (·.isEmpty) = true
      · simp only [if_pos hquiet]
        exact Checked.Matches.after_same fun table => .ok (.mk messages sorted_eq)
      · simp only [if_neg hquiet]
        exact .error _

theorem turn (h : d.Alike e) (turn : Turn) :
    Checked.Matches Alike (d.turn turn) (e.turn turn) :=
  (Checked.Matches.foldlM (fun _ _ node hab => hab.execute node) turn.executing d e h).bind
    fun _ _ hexecuted => hexecuted.noteRow.bind fun _ _ hnoted =>
      (Checked.Matches.foldlM (fun _ _ link hab => hab.send link.1 link.2) turn.sending _ _
        hnoted).bind fun _ _ hsent => hsent.passTime

theorem schedule_eq (h : d.Alike e) : d.schedule = e.schedule := by
  cases h with
  | mk messages sorted_eq =>
      have hmessages := sorted_eq []
      rw [List.append_nil, List.append_nil] at hmessages
      exact congrArg (Schedule.mk (sorted Execution.precedes d.executions)) hmessages

theorem possession_eq (h : d.Alike e) : d.possession = e.possession := by
  cases h with
  | mk messages sorted_eq => rfl

end Alike

/-- What comes after the messages of a step: time passes, there may be more turns and
at the last time more executions, and the draft is settled. -/
def conclude (d : Draft) (turns : List Turn) (last : List Nat) : Checked Draft := do
  let d ← turns.foldlM Draft.turn (← d.passTime)
  let e ← last.foldlM Draft.execute d
  e.settle

theorem Alike.conclude (h : d.Alike e) (turns : List Turn) (last : List Nat) :
    Checked.Matches Alike (d.conclude turns last) (e.conclude turns last) :=
  h.passTime.bind fun _ _ hpassed =>
    (Checked.Matches.foldlM (fun _ _ turn hab => hab.turn turn) turns _ _ hpassed).bind
      fun _ _ hturned =>
        (Checked.Matches.foldlM (fun _ _ node hab => hab.execute node) last _ _ hturned).bind
          fun _ _ hexecuted => hexecuted.settle

/-! ## Any order -/

theorem inbox_sentAll (hperm : links.Perm links')
    (hlinks : ∀ link ∈ links, link.2 < d.inbox.size) :
    (d.sentAll links).inbox = (d.sentAll links').inbox := by
  have hlinks' : ∀ link ∈ links', link.2 < d.inbox.size := fun link hlink =>
    hlinks link (hperm.mem_iff.2 hlink)
  have hsize : (d.sentAll links).inbox.size = (d.sentAll links').inbox.size := by
    rw [size_inbox_sentAll, size_inbox_sentAll]
  refine eq_of_getD ∅ hsize fun node _ => NodeSet.ext fun result => ?_
  have hiff : ((d.sentAll links).arriving node).contains result = true ↔
      ((d.sentAll links').arriving node).contains result = true := by
    rw [contains_arriving_sentAll hlinks, contains_arriving_sentAll hlinks']
    simp only [hperm.mem_iff]
  exact Bool.eq_iff_iff.2 hiff

/-- Messages of the same time and way are the same message. -/
theorem offer_anti (d : Draft) {a b : Message}
    (ha : a ∈ links.map fun link => d.offer link.1 link.2)
    (hb : b ∈ links.map fun link => d.offer link.1 link.2)
    (hab : a.precedes b = true) (hba : b.precedes a = true) : a = b := by
  obtain ⟨first, _, rfl⟩ := List.mem_map.1 ha
  obtain ⟨second, _, rfl⟩ := List.mem_map.1 hb
  rw [Message.precedes_iff] at hab hba
  have hsender : first.1 = second.1 := by
    simp only [offer] at hab hba
    omega
  have hreceiver : first.2 = second.2 := by
    simp only [offer] at hab hba
    omega
  rw [hsender, hreceiver]

/-- The same messages in two orders leave drafts that are alike. -/
theorem alike_sentAll (hperm : links.Perm links')
    (hlinks : ∀ link ∈ links, link.2 < d.inbox.size) :
    (d.sentAll links).Alike (d.sentAll links') := by
  have hdraft : d.sentAll links' =
      { d.sentAll links with messages := (d.sentAll links').messages } := by
    rw [sentAll_same d links, sentAll_same d links', inbox_sentAll hperm hlinks]
  rw [hdraft]
  refine .mk _ fun later => ?_
  rw [messages_sentAll, messages_sentAll]
  exact sorted_congr Message.precedes_total Message.precedes_trans (hperm.map _)
    (fun a ha b hb => offer_anti d ha hb) _ later

/-- A draft with time left can be ended right after the messages of its step. -/
theorem Fits.conclude_eq {nodes horizon : Nat} (h : d.Fits nodes horizon)
    (hhorizon : d.horizon = horizon) (hleft : d.time < horizon) :
    ∃ done, d.conclude [] [] = .ok done := by
  refine ⟨d.delivered.settled, ?_⟩
  unfold conclude
  rw [h.passTime_eq hhorizon hleft]
  exact (h.delivered hleft).settle_eq hhorizon (quiet_delivered d)

end Draft

/-- In a step that is not the last one, whatever has been sent along links of the chain:
what is worth sending was listed as the step began; and the messages sent so far may
be rearranged, with the same draft but for the order of its messages, the same
questions answered the same way, and the same schedule and table whatever comes
after the step. -/
theorem send_order_irrelevant {p : Problem} {bank : RuleBank} {m : Model}
    (h : p.model bank = .ok m) {blank d e : Draft} (hblank : m.blankDraft = .ok blank)
    (hops : Relation.ReflTransGen (Draft.Operates m) blank d) (hleft : d.time < m.horizon)
    (hexec : m.executeReady d = .ok e) :
    ∃ listed, m.usefulLinks e = .ok listed ∧
      ∀ links, (∀ link ∈ links, link ∈ m.chain.links) →
        ∃ f, e.sendAll links = .ok f ∧ (∃ done, f.conclude [] [] = .ok done) ∧
          (∀ sender receiver, ∃ answer, m.isUseful f sender receiver = .ok answer ∧
            (answer = true → (sender, receiver) ∈ listed)) ∧
          ∀ order, links.Perm order →
            ∃ g, e.sendAll order = .ok g ∧ g.held = f.held ∧ g.inbox = f.inbox ∧
              g.possession = f.possession ∧
              (∀ sender receiver, m.isUseful g sender receiver = m.isUseful f sender receiver) ∧
              ∀ turns last,
                (g.conclude turns last).map Draft.schedule =
                  (f.conclude turns last).map Draft.schedule ∧
                (g.conclude turns last).map Draft.possession =
                  (f.conclude turns last).map Draft.possession := by
  have hm := wellFormed_of_model h
  have hs := storable_of_model h
  have hstart := Draft.blankDraft_eq hs
  rw [hblank] at hstart
  cases hstart
  have hd := (Draft.operations_at_least hops hm (Draft.consistent_start hs.horizon_lt)).1
  have hopens := hd.opens_of_executeReady hm hexec
  have he := hopens.consistent
  have hearly : e.time < m.horizon := hopens.time_eq ▸ hleft
  obtain ⟨listed, hlisted, _, hmem⟩ := he.usefulLinks_eq hm
  refine ⟨listed, hlisted, fun links hlinks => ?_⟩
  have hsizes := he.sizes hlinks
  have hreceivers : ∀ link ∈ links, link.2 < e.inbox.size := fun link hlink =>
    (hsizes link hlink).2
  have hplaced := he.placed_sentAll hlinks
  refine ⟨e.sentAll links, Draft.sendAll_eq hsizes, ?_, ?_, ?_⟩
  · have hsame := Draft.sentAll_same e links
    exact hplaced.conclude_eq ((congrArg Draft.horizon hsame).trans he.horizon_eq)
      (Nat.lt_of_le_of_lt (Nat.le_of_eq (congrArg Draft.time hsame)) hearly)
  · intro sender receiver
    obtain ⟨answer, hanswer, huseful⟩ := hplaced.decides_isUseful hm sender receiver
    exact ⟨answer, hanswer, fun hyes =>
      (hmem sender receiver).2 ⟨hearly, (huseful.1 hyes).of_sentAll hreceivers⟩⟩
  · intro order hperm
    have horder : ∀ link ∈ order, link ∈ m.chain.links := fun link hlink =>
      hlinks link (hperm.mem_iff.2 hlink)
    have hreceivers' : ∀ link ∈ order, link.2 < e.inbox.size := fun link hlink =>
      hreceivers link (hperm.mem_iff.2 hlink)
    have halike := Draft.alike_sentAll hperm.symm hreceivers'
    refine ⟨e.sentAll order, Draft.sendAll_eq (he.sizes horder), ?_,
      Draft.inbox_sentAll hperm.symm hreceivers', halike.possession_eq, ?_, ?_⟩
    · rw [Draft.sentAll_same e order, Draft.sentAll_same e links]
    · intro sender receiver
      exact ((he.placed_sentAll horder).decides_isUseful hm sender receiver).eq_of_iff
        (hplaced.decides_isUseful hm sender receiver)
        (Draft.useful_sentAll_iff hperm hreceivers).symm
    · intro turns last
      have hconcluded := halike.conclude turns last
      exact ⟨hconcluded.map_eq fun _ _ => Draft.Alike.schedule_eq,
        hconcluded.map_eq fun _ _ => Draft.Alike.possession_eq⟩

/-- In the first step of a meeting with announcements, with one message sent twice. -/
theorem announcedMeeting_reordered :
    meeting.model (RuleBank.standard.add .rankZeroAnnounce) = .ok announcedMeeting ∧
      announcedMeeting.blankDraft = .ok (.start announcedMeeting) ∧
      ∃ e f g listed, announcedMeeting.executeReady (.start announcedMeeting) = .ok e ∧
        announcedMeeting.usefulLinks e = .ok listed ∧
        e.sendAll [(1, 2), (3, 2), (1, 0), (3, 4), (1, 2)] = .ok f ∧
        e.sendAll [(3, 4), (1, 2), (1, 2), (1, 0), (3, 2)] = .ok g ∧ f ≠ g ∧
        (g.conclude [⟨[2], [(2, 1), (2, 3)]⟩] []).map Draft.schedule =
          (f.conclude [⟨[2], [(2, 1), (2, 3)]⟩] []).map Draft.schedule := by
  have hbuilt : meeting.model (RuleBank.standard.add .rankZeroAnnounce) = .ok announcedMeeting :=
    rfl
  have hleft : (Draft.start announcedMeeting).time < announcedMeeting.horizon := by decide
  obtain ⟨e, hexec⟩ : ∃ e, announcedMeeting.executeReady (.start announcedMeeting) = .ok e :=
    ⟨_, rfl⟩
  obtain ⟨listed, hlisted, hany⟩ := send_order_irrelevant hbuilt rfl .refl hleft hexec
  obtain ⟨f, hf, _, _, horders⟩ := hany [(1, 2), (3, 2), (1, 0), (3, 4), (1, 2)] (by decide)
  obtain ⟨g, hg, _, _, _, _, hlater⟩ :=
    horders [(3, 4), (1, 2), (1, 2), (1, 0), (3, 2)] (by decide)
  refine ⟨hbuilt, rfl, e, f, g, listed, hexec, hlisted, hf, hg, ?_, (hlater _ _).1⟩
  rintro rfl
  cases hexec
  -- the lists of messages tell the two drafts apart
  have hlists := congrArg (Except.map fun d => d.messages.toList.map Message.slot)
    (hf.trans hg.symm)
  revert hlists
  decide

end ChainPropagation
