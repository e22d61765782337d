import Mathlib.Data.List.Perm.Subperm
import ChainPropagation.Proofs.Step

/-!
# How results travel

A result starts from its own node when that executes, and a message takes it one
hop further in one step of time.  So whoever holds a result is no further away
than the time that has passed since (`Holds.within_cone`), and the nodes in
between hold it as well (`Holds.at_between`).  The replay knows nothing of this,
as it takes payloads at their word; but the replay of a valid schedule says who
holds what (`light_cone`).

A result that gets to both endpoints has left its own node to both sides, by
messages of that node.  So there are two messages at least for each intermediate
node (`Lawful.two_mul_le_cost`), and announcements cost nothing: the rule that
asks for them finds them among the messages that are needed anyway
(`announcing_free`).
-/

namespace ChainPropagation

/-! ## The cone of a result -/

namespace Schedule.Holds

variable {s : Schedule} {node result now : Nat}

/-- A result is no more hops away from its own node than time has passed since
its execution. -/
theorem within_cone (hlocal : s.Local) (h : s.Holds node result now) :
    ∃ start, ⟨result, start⟩ ∈ s.executions ∧ start + Chain.hops node result ≤ now := by
  induction h with
  | @own node start now executes done =>
      refine ⟨start, executes, ?_⟩
      show start + (node - node + (node - node)) ≤ now
      omega
  | @told a node result now sent receives arrived carries held ih =>
      have hbeside := hlocal a sent
      have hnear : Chain.hops node result ≤ Chain.hops a.sender result + 1 := by
        unfold Chain.hops
        omega
      obtain ⟨start, executes, hle⟩ := ih
      exact ⟨start, executes, by omega⟩

/-- Nodes between a result and whoever holds it hold it as well. -/
theorem at_between (hlocal : s.Local) (h : s.Holds node result now) :
    ∀ at_, min node result ≤ at_ → at_ ≤ max node result → s.Holds at_ result now := by
  induction h with
  | @own node start now executes done =>
      intro at_ hlow hhigh
      have hown : at_ = node := by omega
      rw [hown]
      exact .own executes done
  | @told a node result now sent receives arrived carries held ih =>
      intro at_ hlow hhigh
      by_cases hlast : at_ = node
      · rw [hlast]
        exact .told sent receives arrived carries held
      · have hbeside := hlocal a sent
        have hbefore := ih at_ (by omega) (by omega)
        exact hbefore.mono (Nat.le_of_lt arrived)

end Schedule.Holds

/-- In the replay of a valid schedule a result is within its cone, and there is
no gap between its own node and whoever holds it. -/
theorem light_cone {p : Problem} {bank : RuleBank} {m : Model}
    (hbank : ∀ rule ∈ RuleBank.standard.rules, rule ∈ bank.rules) (h : p.model bank = .ok m)
    {s : Schedule} (hvalid : m.verdict s = .ok []) :
    ∃ table, m.replay s = .ok table ∧
      ∀ time ≤ m.horizon, ∀ node < m.nodes, ∀ result,
        (table.cell time node).contains result = true →
          m.chain.isInner result = true ∧
          (∃ start, ⟨result, start⟩ ∈ s.executions ∧
            start + Chain.hops node result ≤ time) ∧
          ∀ at_, min node result ≤ at_ → at_ ≤ max node result →
            (table.cell time at_).contains result = true := by
  have hm := wellFormed_of_model h
  have hs := storable_of_model h
  rw [← bank_of_model h] at hbank
  have horderly := (Model.lawful_of_verdict_eq_nil hm hs hbank hvalid).orderly
  refine ⟨s.table m.nodes m.horizon, Model.replay_eq hm hs s, ?_⟩
  intro time htime node hnode result hthere
  have hholds := (horderly.contains_cell_iff_holds hm htime hnode result).1 hthere
  have hinner := horderly.inner_of_holds hholds
  refine ⟨hinner, hholds.within_cone horderly.isLocal, ?_⟩
  intro at_ hlow hhigh
  have hresult : result < m.nodes := Chain.lt_of_isInner hinner
  have hin : at_ < m.nodes := by omega
  rw [horderly.contains_cell_iff_holds hm htime hin]
  exact hholds.at_between horderly.isLocal at_ hlow hhigh

/-- At time 2 node 1 of the meeting holds what node 3 executed at time 0, two hops
away; so the middle holds it too. -/
theorem meetingSchedule_in_cone :
    (∀ rule ∈ RuleBank.standard.rules, rule ∈ RuleBank.standard.rules) ∧
      meeting.model .standard = .ok meetingModel ∧
      meetingModel.verdict meetingSchedule = .ok [] ∧
      ∃ table, meetingModel.replay meetingSchedule = .ok table ∧
        (table.cell 2 1).contains 3 = true ∧ (table.cell 2 2).contains 3 = true ∧
        ∃ start, ⟨3, start⟩ ∈ meetingSchedule.executions ∧ start + 2 ≤ 2 := by
  have hbank : ∀ rule ∈ RuleBank.standard.rules, rule ∈ RuleBank.standard.rules :=
    fun _ hrule => hrule
  have hbuilt : meeting.model .standard = .ok meetingModel := rfl
  have hvalid : meetingModel.verdict meetingSchedule = .ok [] := rfl
  obtain ⟨table, hreplay, hcone⟩ := light_cone hbank hbuilt hvalid
  have htable : table = meetingSchedule.table 5 3 := Except.ok.inj (hreplay.symm.trans rfl)
  have hthere : (table.cell 2 1).contains 3 = true := by
    rw [htable]
    rfl
  obtain ⟨_, hstart, hbetween⟩ := hcone 2 (by decide) 1 (by decide) 3 hthere
  exact ⟨hbank, hbuilt, hvalid, table, hreplay, hthere,
    hbetween 2 (by decide) (by decide), hstart⟩

/-! ## Messages that every schedule needs -/

namespace Chain

variable {c : Chain}

/-- The links that lead away from intermediate nodes. -/
def waysOut (c : Chain) : List (Nat × Nat) :=
  c.inner.flatMap fun node => [(node, node - 1), (node, node + 1)]

theorem mem_waysOut {link : Nat × Nat} : link ∈ c.waysOut ↔
    c.isInner link.1 = true ∧ (link.2 + 1 = link.1 ∨ link.2 = link.1 + 1) := by
  simp only [waysOut, List.mem_flatMap, mem_inner, List.mem_cons, List.not_mem_nil, or_false]
  constructor
  · rintro ⟨node, hinner, rfl | rfl⟩
    · have hrange := isInner_iff.1 hinner
      exact ⟨hinner, .inl (Nat.sub_add_cancel hrange.1)⟩
    · exact ⟨hinner, .inr rfl⟩
  · intro hboth
    have hrange := isInner_iff.1 hboth.1
    refine ⟨link.1, hboth.1, ?_⟩
    simp only [Prod.ext_iff, true_and]
    omega

theorem nodup_waysOut (c : Chain) : c.waysOut.Nodup := by
  refine List.nodup_flatMap.2 ⟨fun node _ => ?_, ?_⟩
  · have hdifferent : node - 1 ≠ node + 1 := by omega
    simp [hdifferent]
  · refine (nodup_inner c).imp fun {a b} hne link hfrom hto => hne ?_
    have hsender : ∀ {node : Nat}, link ∈ [(node, node - 1), (node, node + 1)] → link.1 = node := by
      intro node hmem
      simp only [List.mem_cons, List.not_mem_nil, or_false] at hmem
      rcases hmem with rfl | rfl <;> rfl
    exact (hsender hfrom).symm.trans (hsender hto)

theorem length_waysOut (c : Chain) : c.waysOut.length = 2 * (c.nodes - 2) := by
  simp [waysOut, inner, List.length_flatMap, Nat.mul_comm]

end Chain

namespace Model

variable {m : Model} {s : Schedule}

/-- A lawful schedule sends along each link that leads away from an intermediate
node. -/
theorem Lawful.sends_both_ways (h : m.Lawful s) {node : Nat}
    (hinner : m.chain.isInner node = true) :
    (∃ a ∈ s.messages, a.sender = node ∧ a.receiver + 1 = node) ∧
      ∃ a ∈ s.messages, a.sender = node ∧ a.receiver = node + 1 :=
  h.orderly.isLocal.sends_both_ways hinner (h.complete node hinner).1 (h.complete node hinner).2

/-- These messages are all different. -/
theorem Lawful.two_mul_le_cost (h : m.Lawful s) : 2 * (m.nodes - 2) ≤ s.cost := by
  have hused : m.chain.waysOut ⊆ s.messages.map fun a => (a.sender, a.receiver) := by
    intro link hlink
    obtain ⟨hinner, hside⟩ := Chain.mem_waysOut.1 hlink
    obtain ⟨⟨a, ha, hfrom, hleft⟩, b, hb, hfrom', hright⟩ := h.sends_both_ways hinner
    rcases hside with hside | hside
    · exact List.mem_map.2 ⟨a, ha, Prod.ext hfrom (by simp only; omega)⟩
    · exact List.mem_map.2 ⟨b, hb, Prod.ext hfrom' (by simp only; omega)⟩
  have hle := (List.subperm_of_subset (Chain.nodup_waysOut m.chain) hused).length_le
  rw [Chain.length_waysOut, List.length_map] at hle
  exact hle

/-- A bank that has the standard rules asks for lawful schedules, whatever it asks
for besides. -/
theorem decides_isValid (hm : m.WellFormed) (hs : m.Storable)
    (hbank : ∀ rule ∈ RuleBank.standard.rules, rule ∈ m.bank.rules) (s : Schedule) :
    Decides (m.isValid s) (m.Lawful s) := by
  obtain ⟨breaches, hverdict, hnil⟩ := reports_verdict hm hs s
  refine ⟨breaches.isEmpty, by rw [isValid, hverdict]; rfl, ?_⟩
  rw [List.isEmpty_iff]
  constructor
  · intro hnone
    exact lawful_of_verdict_eq_nil hm hs hbank (hnone ▸ hverdict)
  · intro hlaw
    exact hnil.2 fun rule _ => hlaw.satisfies hm rule

end Model

/-- In a valid schedule every intermediate node sends to both sides, which makes
two messages for each.  The rule on announcements never objects to that, and a
model that has this rule besides judges every schedule the same. -/
theorem announcing_free {p : Problem} {bank : RuleBank} {m : Model}
    (hbank : ∀ rule ∈ RuleBank.standard.rules, rule ∈ bank.rules) (h : p.model bank = .ok m) :
    (∀ s, m.verdict s = .ok [] →
      (∀ node, m.chain.isInner node = true →
        (∃ a ∈ s.messages, a.sender = node ∧ a.receiver + 1 = node) ∧
        ∃ a ∈ s.messages, a.sender = node ∧ a.receiver = node + 1) ∧
      2 * (m.nodes - 2) ≤ s.cost ∧
      ∀ table, m.breachesOf s table .rankZeroAnnounce = .ok []) ∧
    ∃ announced, p.model (bank.add .rankZeroAnnounce) = .ok announced ∧
      ∀ s, announced.isValid s = m.isValid s := by
  have hm := wellFormed_of_model h
  have hs := storable_of_model h
  have hrules : ∀ rule ∈ RuleBank.standard.rules, rule ∈ m.bank.rules := by
    rw [bank_of_model h]
    exact hbank
  refine ⟨fun s hvalid => ?_, { m with bank := bank.add .rankZeroAnnounce },
    model_of_model h _, fun s => ?_⟩
  · have hlaw := Model.lawful_of_verdict_eq_nil hm hs hrules hvalid
    refine ⟨fun node hinner => hlaw.sends_both_ways hinner, hlaw.two_mul_le_cost, fun table => ?_⟩
    have hasked := Model.satisfies_announce hm hlaw.orderly.isLocal hlaw.complete table
    exact (Model.reports_announceBreaches hm s table).eq_nil_iff.2 hasked
  · have hbuilt := model_of_model h (bank.add .rankZeroAnnounce)
    have hmore : ∀ rule ∈ RuleBank.standard.rules, rule ∈ (bank.add .rankZeroAnnounce).rules :=
      fun rule hrule => RuleBank.mem_rules_add.2 (.inl (hbank rule hrule))
    have hannounced := Model.decides_isValid (wellFormed_of_model hbuilt)
      (storable_of_model hbuilt) hmore s
    -- which schedules are lawful does not depend on the bank
    refine hannounced.eq_of_iff (Model.decides_isValid hm hs hrules s) ⟨?_, ?_⟩
    · exact fun hlaw => hlaw.of_horizon_le rfl rfl (Nat.le_refl _)
    · exact fun hlaw => hlaw.of_horizon_le rfl rfl (Nat.le_refl _)

/-- The meeting has three intermediate nodes, and its schedule gets by with the two
messages that each of them has to send. -/
theorem meetingSchedule_announces :
    (∀ rule ∈ RuleBank.standard.rules, rule ∈ RuleBank.standard.rules) ∧
      meeting.model .standard = .ok meetingModel ∧
      meetingModel.verdict meetingSchedule = .ok [] ∧
      (∃ a ∈ meetingSchedule.messages, a.sender = 2 ∧ a.receiver + 1 = 2) ∧
      2 * (5 - 2) ≤ meetingSchedule.cost ∧ meetingSchedule.cost = 6 ∧
      meetingModel.breachesOf meetingSchedule (meetingSchedule.table 5 3) .rankZeroAnnounce =
        .ok [] ∧
      ∃ announced, meeting.model (RuleBank.standard.add .rankZeroAnnounce) = .ok announced ∧
        announced.isValid meetingSchedule = .ok true := by
  have hbank : ∀ rule ∈ RuleBank.standard.rules, rule ∈ RuleBank.standard.rules :=
    fun _ hrule => hrule
  have hbuilt : meeting.model .standard = .ok meetingModel := rfl
  have hvalid : meetingModel.verdict meetingSchedule = .ok [] := rfl
  have hjudged : meetingModel.isValid meetingSchedule = .ok true := rfl
  obtain ⟨hsent, announced, hannounced, hsame⟩ := announcing_free hbank hbuilt
  obtain ⟨hsides, hcost, hasked⟩ := hsent meetingSchedule hvalid
  have hmiddle := hsides 2 (by decide)
  exact ⟨hbank, hbuilt, hvalid, hmiddle.1, hcost, rfl, hasked _, announced, hannounced,
    (hsame meetingSchedule).trans hjudged⟩

end ChainPropagation
