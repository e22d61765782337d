import Mathlib.Data.List.Perm.Subperm
import ChainPropagation.Proofs.WellFormed
import ChainPropagation.Verdict

/-!
# Lawful schedules

`Schedule.Holds` says who holds what when, without any table: a node holds its
own result from its execution on, and a result that it was told by a node that
held it when it sent the message.  A message that carries a result which its
sender does not hold tells nothing.

`Model.Lawful` says in these terms what a schedule has to satisfy.  It does not
mention the announcements of rank 0: a lawful schedule makes all of them, since
a result can leave its own node in no other way (`Local.sends_both_ways`).  Most
of it does not depend on how far the schedule gets; `Model.Orderly` is that part.

## Main results

* `Holds.transfer` — what is held at a time depends only on the events until
  then.
* `Holds.crosses_right`, `Holds.crosses_left` — a result has crossed every link
  between its own node and a node that holds it.
* `Local.sends_both_ways` — a result that gets to both endpoints left its own
  node to both sides.
* `Orderly.lawful` — what an orderly schedule needs to be lawful.
-/

namespace ChainPropagation

/-- Which way a message goes, and when. -/
def Message.slot (a : Message) : Nat × Nat × Nat := (a.sender, a.receiver, a.time)

namespace Schedule

/-- The least relation between a node, a result and a time such that a node
holds its own result once it has executed, and whatever a message carries that
was held by its sender. -/
inductive Holds (s : Schedule) : (node result time : Nat) → Prop where
  | own {node time now : Nat} (executes : ⟨node, time⟩ ∈ s.executions) (done : time ≤ now) :
      Holds s node node now
  | told {a : Message} {node result now : Nat} (sent : a ∈ s.messages)
      (receives : a.receiver = node) (arrived : a.time < now)
      (carries : a.payload.contains result = true) (held : Holds s a.sender result a.time) :
      Holds s node result now

namespace Holds

variable {s s' : Schedule} {node result time now : Nat}

/-- What is held at a time depends only on the executions until then and on the
messages before. -/
theorem transfer (h : s.Holds node result time) (hle : time ≤ now)
    (hexec : ∀ e ∈ s.executions, e.time ≤ now → e ∈ s'.executions)
    (hsent : ∀ a ∈ s.messages, a.time < now → a ∈ s'.messages) :
    s'.Holds node result time := by
  induction h with
  | own executes done => exact .own (hexec _ executes (by simp only; omega)) done
  | told sent receives arrived carries _ ih =>
      exact .told (hsent _ sent (by omega)) receives arrived carries (ih (by omega))

/-- Nothing is forgotten. -/
theorem mono (h : s.Holds node result time) (hle : time ≤ now) :
    s.Holds node result now := by
  cases h with
  | own executes done => exact .own executes (by omega)
  | told sent receives arrived carries held =>
      exact .told sent receives (by omega) carries held

/-- A result exists once its own node has executed. -/
theorem executed (h : s.Holds node result now) :
    ∃ time, ⟨result, time⟩ ∈ s.executions ∧ time ≤ now := by
  induction h with
  | own executes done => exact ⟨_, executes, done⟩
  | told _ _ arrived _ _ ih =>
      obtain ⟨time, hexec, hle⟩ := ih
      exact ⟨time, hexec, by omega⟩

end Holds

/-- The order in which the events are listed does not matter. -/
theorem holds_congr {s s' : Schedule} (hexec : s.executions.Perm s'.executions)
    (hsent : s.messages.Perm s'.messages) {node result time : Nat} :
    s.Holds node result time ↔ s'.Holds node result time :=
  ⟨fun h => h.transfer (Nat.le_refl _) (fun _ he _ => hexec.mem_iff.1 he)
      fun _ ha _ => hsent.mem_iff.1 ha,
    fun h => h.transfer (Nat.le_refl _) (fun _ he _ => hexec.mem_iff.2 he)
      fun _ ha _ => hsent.mem_iff.2 ha⟩

/-- One step of time: what is held next was held before, is told by a message
sent just now, or is the own result of a node that executes. -/
theorem holds_succ_iff {s : Schedule} {node result time : Nat} :
    s.Holds node result (time + 1) ↔
      s.Holds node result time ∨
      (∃ a ∈ s.messages, a.receiver = node ∧ a.time = time ∧
        a.payload.contains result = true ∧ s.Holds a.sender result time) ∨
      (node = result ∧ ⟨node, time + 1⟩ ∈ s.executions) := by
  constructor
  · intro h
    cases h with
    | @own _ e _ executes done =>
        by_cases hnow : e = time + 1
        · subst hnow
          exact .inr (.inr ⟨rfl, executes⟩)
        · exact .inl (.own executes (by omega))
    | @told a _ _ _ sent receives arrived carries held =>
        by_cases hnow : a.time = time
        · exact .inr (.inl ⟨a, sent, receives, hnow, carries, hnow ▸ held⟩)
        · exact .inl (.told sent receives (by omega) carries held)
  · rintro (h | ⟨a, sent, receives, rfl, carries, held⟩ | ⟨rfl, executes⟩)
    · exact h.mono (by omega)
    · exact .told sent receives (by omega) carries held
    · exact .own executes (by omega)

/-! ## Executing once -/

/-- A node that is listed at most once executes at one time only. -/
theorem time_unique {s : Schedule} {node time later : Nat}
    (hone : s.executions.countP (·.node == node) ≤ 1)
    (h₁ : ⟨node, time⟩ ∈ s.executions) (h₂ : ⟨node, later⟩ ∈ s.executions) : time = later := by
  have hmem : ∀ t, ⟨node, t⟩ ∈ s.executions →
      (⟨node, t⟩ : Execution) ∈ s.executions.filter (·.node == node) := by
    intro t ht
    simpa using ht
  have hpos := List.length_pos_of_mem (hmem time h₁)
  rw [List.countP_eq_length_filter] at hone
  obtain ⟨e, he⟩ := List.length_eq_one_iff.1 (Nat.le_antisymm hone hpos)
  have hfirst := hmem time h₁
  have hsecond := hmem later h₂
  rw [he, List.mem_singleton] at hfirst hsecond
  have heq := hfirst.trans hsecond.symm
  cases heq
  rfl

/-- Then the first entry for it says when. -/
theorem timeOf_eq_some_iff {s : Schedule} {node time : Nat}
    (hone : s.executions.countP (·.node == node) ≤ 1) :
    s.timeOf node = some time ↔ ⟨node, time⟩ ∈ s.executions := by
  constructor
  · intro hfirst
    obtain ⟨e, hfind, rfl⟩ := Option.map_eq_some_iff.1 hfirst
    have hat : e.node = node := by simpa using List.find?_some hfind
    exact hat ▸ List.mem_of_find?_eq_some hfind
  · intro hmem
    have hsome : (s.executions.find? (·.node == node)).isSome = true := by
      rw [List.find?_isSome]
      exact ⟨_, hmem, by simp⟩
    obtain ⟨e, hfind⟩ := Option.isSome_iff_exists.1 hsome
    have hat : e.node = node := by simpa using List.find?_some hfind
    have hfound : ⟨node, e.time⟩ ∈ s.executions := hat ▸ List.mem_of_find?_eq_some hfind
    rw [timeOf, hfind, time_unique hone hmem hfound]
    rfl

/-- If intermediate nodes are listed once, and no others are, no node is listed
twice. -/
theorem countP_le_one {s : Schedule} {c : Chain}
    (honce : ∀ node, c.isInner node = true → s.executions.countP (·.node == node) = 1)
    (hinner : ∀ e ∈ s.executions, c.isInner e.node = true) (node : Nat) :
    s.executions.countP (·.node == node) ≤ 1 := by
  by_cases hnode : c.isInner node = true
  · exact Nat.le_of_eq (honce node hnode)
  · have hnone : s.executions.countP (·.node == node) = 0 := by
      rw [List.countP_eq_zero]
      intro e he hat
      exact hnode (beq_iff_eq.1 hat ▸ hinner e he)
    omega

/-! ## Crossing the chain -/

/-- Every message goes to a node next to its sender. -/
def Local (s : Schedule) : Prop :=
  ∀ a ∈ s.messages, a.sender + 1 = a.receiver ∨ a.receiver + 1 = a.sender

/-- On its way to the right a result crosses every link. -/
theorem Holds.crosses_right {s : Schedule} {node result now : Nat} (hlocal : s.Local)
    (h : s.Holds node result now) : ∀ at_, result ≤ at_ → at_ < node →
      ∃ a ∈ s.messages, a.sender = at_ ∧ a.receiver = at_ + 1 ∧ a.time < now := by
  induction h with
  | own executes done =>
      intro at_ hle hlt
      omega
  | @told a node result now sent receives arrived carries held ih =>
      intro at_ hle hlt
      by_cases hlast : at_ = a.sender ∧ a.receiver = a.sender + 1
      · exact ⟨a, sent, hlast.1.symm, by omega, arrived⟩
      · have hbeside := hlocal a sent
        obtain ⟨b, hb, hsender, hreceiver, htime⟩ := ih at_ hle (by omega)
        exact ⟨b, hb, hsender, hreceiver, by omega⟩

/-- On its way to the left a result crosses every link. -/
theorem Holds.crosses_left {s : Schedule} {node result now : Nat} (hlocal : s.Local)
    (h : s.Holds node result now) : ∀ at_, node < at_ → at_ ≤ result →
      ∃ a ∈ s.messages, a.sender = at_ ∧ a.receiver + 1 = at_ ∧ a.time < now := by
  induction h with
  | own executes done =>
      intro at_ hle hlt
      omega
  | @told a node result now sent receives arrived carries held ih =>
      intro at_ hlt hle
      by_cases hlast : at_ = a.sender ∧ a.receiver + 1 = a.sender
      · exact ⟨a, sent, hlast.1.symm, by omega, arrived⟩
      · have hbeside := hlocal a sent
        obtain ⟨b, hb, hsender, hreceiver, htime⟩ := ih at_ (by omega) hle
        exact ⟨b, hb, hsender, hreceiver, by omega⟩

/-- A result that gets to both endpoints leaves its own node to both sides. -/
theorem Local.sends_both_ways {s : Schedule} {c : Chain} {node now : Nat} (hlocal : s.Local)
    (hinner : c.isInner node = true) (hfirst : s.Holds 0 node now)
    (hlast : s.Holds c.farEnd node now) :
    (∃ a ∈ s.messages, a.sender = node ∧ a.receiver + 1 = node) ∧
      ∃ a ∈ s.messages, a.sender = node ∧ a.receiver = node + 1 := by
  have hrange := Chain.isInner_iff.1 hinner
  obtain ⟨a, ha, hsa, hra, _⟩ := hfirst.crosses_left hlocal node hrange.1 (Nat.le_refl _)
  obtain ⟨b, hb, hsb, hrb, _⟩ := hlast.crosses_right hlocal node (Nat.le_refl _)
    (by rw [Chain.farEnd]; omega)
  exact ⟨⟨a, ha, hsa, hra⟩, b, hb, hsb, hrb⟩

end Schedule

/-! ## What a schedule has to satisfy -/

namespace Model

/-- What a schedule has to satisfy, in terms of its events alone. -/
structure Lawful (m : Model) (s : Schedule) : Prop where
  once : ∀ node, m.chain.isInner node = true → s.executions.countP (·.node == node) = 1
  inner : ∀ e ∈ s.executions, m.chain.isInner e.node = true
  in_time : ∀ e ∈ s.executions, e.time ≤ m.horizon
  at_once : ∀ e ∈ s.executions, m.rank e.node = 0 → e.time = 0
  enabled : ∀ e ∈ s.executions, 0 < m.rank e.node →
    ∀ other, m.chain.isInner other = true → m.rank other < m.rank e.node →
      s.Holds e.node other e.time
  beside : ∀ a ∈ s.messages, a.sender < m.nodes ∧ a.receiver < m.nodes ∧
    Chain.hops a.sender a.receiver = 1
  sent_in_time : ∀ a ∈ s.messages, a.time ≤ m.horizon
  nonempty : ∀ a ∈ s.messages, ∃ result, a.payload.contains result = true
  distinct : (s.messages.map Message.slot).Nodup
  held : ∀ a ∈ s.messages, ∀ result, a.payload.contains result = true →
    s.Holds a.sender result a.time
  complete : ∀ node, m.chain.isInner node = true →
    s.Holds 0 node m.horizon ∧ s.Holds m.chain.farEnd node m.horizon

/-- What a schedule has to satisfy as far as it goes: everything but that all is
done by the horizon, so that nodes may be left out. -/
structure Orderly (m : Model) (s : Schedule) : Prop where
  once : ∀ node, s.executions.countP (·.node == node) ≤ 1
  inner : ∀ e ∈ s.executions, m.chain.isInner e.node = true
  in_time : ∀ e ∈ s.executions, e.time ≤ m.horizon
  at_once : ∀ e ∈ s.executions, m.rank e.node = 0 → e.time = 0
  enabled : ∀ e ∈ s.executions, 0 < m.rank e.node →
    ∀ other, m.chain.isInner other = true → m.rank other < m.rank e.node →
      s.Holds e.node other e.time
  sideBySide : ∀ a ∈ s.messages, m.chain.sideBySide a.sender a.receiver = true
  sent_in_time : ∀ a ∈ s.messages, a.time ≤ m.horizon
  nonempty : ∀ a ∈ s.messages, ∃ result, a.payload.contains result = true
  distinct : (s.messages.map Message.slot).Nodup
  held : ∀ a ∈ s.messages, ∀ result, a.payload.contains result = true →
    s.Holds a.sender result a.time

variable {m m' : Model} {s s' : Schedule}

namespace Orderly

theorem isLocal (h : m.Orderly s) : s.Local := by
  intro a ha
  exact (Chain.sideBySide_iff.1 (h.sideBySide a ha)).2.2

/-- A node that executes holds all that it waits for. -/
theorem holds_awaited (h : m.Orderly s) (hm : m.WellFormed) {node other time : Nat}
    (hexec : ⟨node, time⟩ ∈ s.executions) (hwaits : m.Waits node other) :
    s.Holds node other time := by
  have hpos : 0 < m.rank node := hm.rank_pos_of_waits hwaits
  exact h.enabled _ hexec hpos other hwaits.1 hwaits.2

/-- An orderly schedule does not have more messages than two tables have cells, as each goes
its own way at its own time. -/
theorem cost_lt (h : m.Orderly s) (hs : m.Storable) : s.cost < 2 * storageLimit := by
  have hslots : s.messages.map Message.slot ⊆ (List.range (m.horizon + 1)).flatMap fun time =>
      m.chain.links.map fun link => (link.1, link.2, time) := by
    intro slot hslot
    obtain ⟨a, ha, rfl⟩ := List.mem_map.1 hslot
    refine List.mem_flatMap.2 ⟨a.time, List.mem_range.2 ?_, List.mem_map.2 ?_⟩
    · have hle := h.sent_in_time a ha
      omega
    · exact ⟨(a.sender, a.receiver), Chain.mem_links.2 (h.sideBySide a ha), rfl⟩
  have hcount := (List.subperm_of_subset h.distinct hslots).length_le
  have hlinks := m.chain.length_links_le
  have hall : ((List.range (m.horizon + 1)).flatMap fun time =>
      m.chain.links.map fun link => (link.1, link.2, time)).length =
      (m.horizon + 1) * m.chain.links.length := by
    simp
  rw [List.length_map, hall] at hcount
  have htable := hs.table
  have hmul := Nat.mul_le_mul_left (m.horizon + 1) hlinks
  have hdouble : (m.horizon + 1) * (2 * m.chain.nodes) =
      2 * (m.chain.nodes * (m.horizon + 1)) := by
    rw [Nat.mul_left_comm, Nat.mul_comm (m.horizon + 1)]
  unfold Schedule.cost
  omega

/-- Nodes execute once. -/
theorem execution_unique (h : m.Orderly s) {node time later : Nat}
    (h₁ : ⟨node, time⟩ ∈ s.executions) (h₂ : ⟨node, later⟩ ∈ s.executions) : time = later :=
  Schedule.time_unique (h.once node) h₁ h₂

/-- So the first entry for a node says when it executes. -/
theorem timeOf_eq_some_iff (h : m.Orderly s) {node time : Nat} :
    s.timeOf node = some time ↔ ⟨node, time⟩ ∈ s.executions :=
  Schedule.timeOf_eq_some_iff (h.once node)

/-- Only results of intermediate nodes are ever held. -/
theorem inner_of_holds (h : m.Orderly s) {node result now : Nat}
    (hholds : s.Holds node result now) : m.chain.isInner result = true := by
  obtain ⟨time, hexec, _⟩ := hholds.executed
  exact h.inner _ hexec

/-- A longer horizon forbids nothing. -/
theorem of_horizon_le (h : m.Orderly s) (hchain : m'.chain = m.chain)
    (hranks : m'.ranks = m.ranks) (hle : m.horizon ≤ m'.horizon) : m'.Orderly s := by
  obtain ⟨chain, ranks, horizon, bank⟩ := m
  obtain ⟨chain', ranks', horizon', bank'⟩ := m'
  cases hchain
  cases hranks
  exact
    { once := h.once
      inner := h.inner
      in_time := fun e he => Nat.le_trans (h.in_time e he) hle
      at_once := h.at_once
      enabled := h.enabled
      sideBySide := h.sideBySide
      sent_in_time := fun a ha => Nat.le_trans (h.sent_in_time a ha) hle
      nonempty := h.nonempty
      distinct := h.distinct
      held := h.held }

/-- The order in which the events are listed does not matter. -/
theorem of_perm (h : m.Orderly s) (hexec : s.executions.Perm s'.executions)
    (hsent : s.messages.Perm s'.messages) : m.Orderly s' := by
  have hholds : ∀ {node result now}, s.Holds node result now → s'.Holds node result now :=
    (Schedule.holds_congr hexec hsent).1
  exact
    { once := fun node => (hexec.countP_eq _).symm ▸ h.once node
      inner := fun e he => h.inner e (hexec.mem_iff.2 he)
      in_time := fun e he => h.in_time e (hexec.mem_iff.2 he)
      at_once := fun e he => h.at_once e (hexec.mem_iff.2 he)
      enabled := fun e he hpos other hother hlt =>
        hholds (h.enabled e (hexec.mem_iff.2 he) hpos other hother hlt)
      sideBySide := fun a ha => h.sideBySide a (hsent.mem_iff.2 ha)
      sent_in_time := fun a ha => h.sent_in_time a (hsent.mem_iff.2 ha)
      nonempty := fun a ha => h.nonempty a (hsent.mem_iff.2 ha)
      distinct := (hsent.map _).nodup_iff.1 h.distinct
      held := fun a ha result hresult => hholds (h.held a (hsent.mem_iff.2 ha) result hresult) }

/-- An orderly schedule that gets every result to both endpoints is lawful: no
node is left out, since its result has got there. -/
theorem lawful (h : m.Orderly s) (hends : ∀ node, m.chain.isInner node = true →
    s.Holds 0 node m.horizon ∧ s.Holds m.chain.farEnd node m.horizon) : m.Lawful s :=
  { once := by
      intro node hinner
      obtain ⟨time, hexec, _⟩ := (hends node hinner).1.executed
      have hpos : 0 < s.executions.countP (·.node == node) :=
        List.countP_pos_iff.2 ⟨_, hexec, beq_self_eq_true node⟩
      exact Nat.le_antisymm (h.once node) hpos
    inner := h.inner
    in_time := h.in_time
    at_once := h.at_once
    enabled := h.enabled
    beside := by
      intro a ha
      obtain ⟨hsender, hreceiver, hnext⟩ := Chain.sideBySide_iff.1 (h.sideBySide a ha)
      refine ⟨hsender, hreceiver, ?_⟩
      unfold Chain.hops
      omega
    sent_in_time := h.sent_in_time
    nonempty := h.nonempty
    distinct := h.distinct
    held := h.held
    complete := hends }

end Orderly

namespace Lawful

theorem sideBySide (h : m.Lawful s) {a : Message} (ha : a ∈ s.messages) :
    m.chain.sideBySide a.sender a.receiver = true := by
  obtain ⟨hsender, hreceiver, hhops⟩ := h.beside a ha
  rw [Chain.sideBySide_iff]
  refine ⟨hsender, hreceiver, ?_⟩
  unfold Chain.hops at hhops
  omega

theorem orderly (h : m.Lawful s) : m.Orderly s :=
  { once := Schedule.countP_le_one h.once h.inner
    inner := h.inner
    in_time := h.in_time
    at_once := h.at_once
    enabled := h.enabled
    sideBySide := fun _ ha => h.sideBySide ha
    sent_in_time := h.sent_in_time
    nonempty := h.nonempty
    distinct := h.distinct
    held := h.held }

/-- A node that executes holds all that it waits for. -/
theorem holds_awaited (h : m.Lawful s) (hm : m.WellFormed) {node other time : Nat}
    (hexec : ⟨node, time⟩ ∈ s.executions) (hwaits : m.Waits node other) :
    s.Holds node other time :=
  h.orderly.holds_awaited hm hexec hwaits

/-- A longer horizon forbids nothing. -/
theorem of_horizon_le (h : m.Lawful s) (hchain : m'.chain = m.chain)
    (hranks : m'.ranks = m.ranks) (hle : m.horizon ≤ m'.horizon) : m'.Lawful s := by
  refine (h.orderly.of_horizon_le hchain hranks hle).lawful fun node hinner => ?_
  rw [hchain] at hinner ⊢
  exact ⟨(h.complete node hinner).1.mono hle, (h.complete node hinner).2.mono hle⟩

end Lawful

end Model

end ChainPropagation
