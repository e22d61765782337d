import Mathlib.Data.List.GetD
import Mathlib.Data.List.Nodup
import ChainPropagation.Model

/-!
# Models of well-formed problems

`Problem.model` builds a model only of a problem with which nothing is wrong.
What its check establishes is `Model.WellFormed`; for such a model the checked
views of the chain and of its ranks never meet a fault, and agree with the
total ones.  The horizon is kept apart, in `Model.Storable`: a model whose
horizon was replaced is as well formed as before.

## Main results

* `wellFormed_of_model`, `storable_of_model` — what a built model satisfies.
* `contains_awaited`, `rank_pos_of_waits` — the sets of results that nodes wait for.
* `pairwise_sequence` — in the order of the ranks a node never comes before one
  that it waits for.
-/

namespace ChainPropagation

/-! ## The chain -/

namespace Chain

@[simp] theorem isInner_iff {c : Chain} {node : Nat} :
    c.isInner node = true ↔ 0 < node ∧ node + 1 < c.nodes := by
  simp [isInner]

theorem lt_of_isInner {c : Chain} {node : Nat} (h : c.isInner node = true) :
    node < c.nodes := by
  have hrange := isInner_iff.1 h
  omega

/-- Endpoints are not between the endpoints. -/
theorem isInner_zero (c : Chain) : c.isInner 0 = false := rfl

theorem isInner_farEnd (c : Chain) : c.isInner c.farEnd = false := by
  rw [← Bool.not_eq_true, isInner_iff, farEnd]
  omega

theorem mem_inner {c : Chain} {node : Nat} : node ∈ c.inner ↔ c.isInner node = true := by
  rw [inner, List.mem_range'_1, isInner_iff]
  omega

theorem nodup_inner (c : Chain) : c.inner.Nodup := List.nodup_range'

theorem sideBySide_iff {c : Chain} {a b : Nat} :
    c.sideBySide a b = true ↔
      a < c.nodes ∧ b < c.nodes ∧ (a + 1 = b ∨ b + 1 = a) := by
  simp [sideBySide, and_assoc]

theorem mem_beside {c : Chain} {node other : Nat} :
    other ∈ c.beside node ↔ other + 1 = node ∨ (node + 1 = other ∧ other < c.nodes) := by
  rw [beside, List.mem_append]
  apply or_congr
  · split
    · rw [List.mem_singleton]
      omega
    · simp only [List.not_mem_nil, false_iff]
      omega
  · split
    · rw [List.mem_singleton]
      omega
    · simp only [List.not_mem_nil, false_iff]
      omega

theorem lt_of_mem_beside {c : Chain} {node other : Nat} (h : node < c.nodes)
    (hmem : other ∈ c.beside node) : other < c.nodes := by
  rcases mem_beside.1 hmem with hleft | ⟨_, hright⟩
  · omega
  · exact hright

/-- The links are the ordered pairs of nodes that stand side by side. -/
theorem mem_links {c : Chain} {a b : Nat} :
    (a, b) ∈ c.links ↔ c.sideBySide a b = true := by
  simp only [links, List.mem_flatMap, List.mem_range, List.mem_map, Prod.mk.injEq,
    sideBySide_iff, mem_beside]
  constructor
  · rintro ⟨node, hnode, other, hother, rfl, rfl⟩
    omega
  · rintro ⟨ha, hb, hbeside⟩
    exact ⟨a, ha, b, by omega, rfl, rfl⟩

theorem nodup_links (c : Chain) : c.links.Nodup := by
  refine List.nodup_flatMap.2 ⟨fun node _ => ?_, ?_⟩
  · simp only [beside]
    split <;> split <;> simp
  · refine List.nodup_range.imp fun {a b} hne x hxa hxb => ?_
    obtain ⟨_, _, rfl⟩ := List.mem_map.1 hxa
    obtain ⟨_, _, hx⟩ := List.mem_map.1 hxb
    exact hne (congrArg Prod.fst hx).symm

/-- Every node has at most two nodes beside it. -/
theorem length_links_le (c : Chain) : c.links.length ≤ 2 * c.nodes := by
  have hall : ∀ nodes : List Nat,
      (nodes.flatMap fun node => (c.beside node).map (node, ·)).length ≤ 2 * nodes.length := by
    intro nodes
    induction nodes with
    | nil => exact Nat.le_refl _
    | cons node nodes ih =>
        have hbeside : (c.beside node).length ≤ 2 := by
          rw [Chain.beside, List.length_append]
          split <;> split <;> simp
        rw [List.flatMap_cons, List.length_append, List.length_map, List.length_cons]
        omega
  have hrange := hall (List.range c.nodes)
  rw [List.length_range] at hrange
  exact hrange

theorem farEndChecked_eq {c : Chain} (h : 2 ≤ c.nodes) : c.farEndChecked = .ok c.farEnd := by
  rw [farEndChecked, if_neg (by omega)]

theorem innerChecked_eq {c : Chain} (h : 2 ≤ c.nodes) : c.innerChecked = .ok c.inner := by
  unfold innerChecked
  rw [farEndChecked_eq h]
  rfl

theorem isInnerChecked_eq {c : Chain} (h : 2 ≤ c.nodes) (node : Nat) :
    c.isInnerChecked node = .ok (c.isInner node) := by
  unfold isInnerChecked
  split
  · rename_i hzero
    simp [hzero, isInner]
  · rename_i hpos
    rw [farEndChecked_eq h]
    have hiff : node < c.farEnd ↔ c.isInner node = true := by
      rw [isInner_iff, farEnd]
      omega
    show Except.ok (decide (node < c.farEnd)) = _
    rw [decide_eq_decide.2 hiff, Bool.decide_coe]

theorem isEnd_eq {c : Chain} (h : 2 ≤ c.nodes) (node : Nat) :
    c.isEnd node = .ok (node == 0 || node == c.farEnd) := by
  unfold isEnd
  split
  · rename_i hzero
    simp [hzero]
  · rename_i hpos
    rw [farEndChecked_eq h, beq_eq_false_iff_ne.2 hpos, Bool.false_or]
    rfl

theorem besideChecked_eq {c : Chain} {node : Nat} (h : node + 1 < wordLimit) :
    c.besideChecked node = .ok (c.beside node) := by
  rw [besideChecked, fitting_of_lt h]
  rfl

theorem resultSetChecked_eq {c : Chain} (h : 2 ≤ c.nodes) (hcap : c.nodes ≤ NodeSet.capacity) :
    c.resultSetChecked = .ok c.resultSet := by
  unfold resultSetChecked
  rw [farEndChecked_eq h]
  show (if NodeSet.capacity + 1 < c.nodes then _ else _) = _
  rw [if_neg (by omega)]
  rfl

theorem contains_resultSet {c : Chain} (hcap : c.nodes ≤ NodeSet.capacity) {node : Nat} :
    c.resultSet.contains node = true ↔ c.isInner node = true := by
  rw [resultSet, NodeSet.contains_ofList, mem_inner, isInner_iff]
  omega

theorem isSubset_resultSet_iff {c : Chain} (hcap : c.nodes ≤ NodeSet.capacity) {set : NodeSet} :
    set.isSubset c.resultSet = true ↔
      ∀ result, set.contains result = true → c.isInner result = true := by
  rw [NodeSet.isSubset_iff]
  simp only [contains_resultSet hcap]

theorem resultSet_isSubset_iff {c : Chain} (hcap : c.nodes ≤ NodeSet.capacity) {set : NodeSet} :
    c.resultSet.isSubset set = true ↔
      ∀ result, c.isInner result = true → set.contains result = true := by
  rw [NodeSet.isSubset_iff]
  simp only [contains_resultSet hcap]

end Chain

/-! ## What the check establishes -/

namespace Model

@[simp] theorem nodes_eq (m : Model) : m.nodes = m.chain.nodes := rfl

/-- The rank of a node. -/
def rank (m : Model) (node : Nat) : Int := m.ranks.values.getD node 0

/-- The results that a node waits for. -/
def awaited (m : Model) (node : Nat) : NodeSet := m.ranks.awaited.getD node ∅

/-- Whether a node waits for the result of another one. -/
def Waits (m : Model) (node other : Nat) : Prop :=
  m.chain.isInner other = true ∧ m.rank other < m.rank node

/-- A chain of a size within range, with a rank for each node: none negative,
some 0, and the endpoints have the highest one. -/
structure WellFormed (m : Model) : Prop where
  two_le : 2 ≤ m.chain.nodes
  le_capacity : m.chain.nodes ≤ NodeSet.capacity
  ranks_eq : m.ranks = .assign m.chain m.ranks.values
  length_values : m.ranks.values.length = m.chain.nodes
  rank_nonneg : ∀ node, 0 ≤ m.rank node
  zero_mem : 0 ∈ m.ranks.values
  rank_le_first : ∀ node, m.rank node ≤ m.rank 0
  rank_le_last : ∀ node, m.rank node ≤ m.rank m.chain.farEnd

/-- The table of a schedule can be stored, along with three words for each
time. -/
structure Storable (m : Model) : Prop where
  table : m.chain.nodes * (m.horizon + 1) < storageLimit
  times : 3 * (m.horizon + 1) < storageLimit

theorem Storable.horizon_lt {m : Model} (hs : m.Storable) : m.horizon < storageLimit := by
  have htimes := hs.times
  omega

end Model

theorem rankFaults_eq_nil {ranks : List Int} {nodes : Nat} (h : rankFaults ranks nodes = []) :
    ranks.length = nodes ∧ (∀ rank ∈ ranks, 0 ≤ rank) ∧ 0 ∈ ranks ∧
      endpointFaults ranks = [] := by
  unfold rankFaults at h
  split at h
  · cases h
  · rename_i hlen
    obtain ⟨hfront, hends⟩ := List.append_eq_nil_iff.1 h
    obtain ⟨hneg, hzero⟩ := List.append_eq_nil_iff.1 hfront
    refine ⟨by omega, fun rank hrank => ?_, ?_, hends⟩
    · obtain ⟨i, hi, rfl⟩ := List.getElem_of_mem hrank
      have hmem : (ranks[i], i) ∈ ranks.zipIdx := by
        rw [List.mk_mem_zipIdx_iff_getElem?]
        exact List.getElem?_eq_getElem hi
      have hnone := List.filter_eq_nil_iff.1 (List.map_eq_nil_iff.1 hneg) _ hmem
      simpa using hnone
    · split at hzero
      · rename_i hc
        simpa using hc
      · cases hzero

/-- If nothing is wrong with the endpoints, no rank exceeds theirs. -/
theorem le_of_endpointFaults_eq_nil {ranks : List Int} (h : endpointFaults ranks = [])
    (hpos : 0 < ranks.length) : ∀ rank ∈ ranks,
      rank ≤ ranks.getD 0 0 ∧ rank ≤ ranks.getD (ranks.length - 1) 0 := by
  unfold endpointFaults at h
  split at h
  · rename_i hnone
    rw [List.max?_eq_none_iff] at hnone
    simp [hnone] at hpos
  · rename_i highest hmax
    have hle := (List.max?_eq_some_iff.1 hmax).2
    have hend : ∀ endpoint ∈ [0, ranks.length - 1], ranks.getD endpoint 0 = highest := by
      intro endpoint hmem
      have hlt : endpoint < ranks.length := by
        rcases List.mem_cons.1 hmem with rfl | hmem
        · exact hpos
        · rw [List.mem_singleton.1 hmem]
          omega
      have hfault := List.filterMap_eq_nil_iff.1 h endpoint hmem
      rw [List.getD_eq_getElem _ _ hlt]
      rw [List.getD_eq_getElem _ _ hlt] at hfault
      by_cases heq : ranks[endpoint] = highest
      · exact heq
      · simp [heq] at hfault
    intro rank hrank
    rw [hend 0 (by simp), hend (ranks.length - 1) (by simp)]
    exact ⟨hle rank hrank, hle rank hrank⟩

theorem model_eq_ok {p : Problem} {bank : RuleBank} {m : Model} (h : p.model bank = .ok m) :
    p.faults = [] ∧ m = {
      chain := { nodes := p.nodes }
      ranks := .assign { nodes := p.nodes } p.ranks
      horizon := min p.horizon (p.nodes * p.nodes)
      bank } := by
  unfold Problem.model at h
  split at h
  · rename_i hnone
    cases h
    exact ⟨hnone, rfl⟩
  · cases h

theorem bank_of_model {p : Problem} {bank : RuleBank} {m : Model}
    (h : p.model bank = .ok m) : m.bank = bank := by
  rw [(model_eq_ok h).2]

/-- A problem has a model under every bank or under none. -/
theorem model_of_model {p : Problem} {bank : RuleBank} {m : Model} (h : p.model bank = .ok m)
    (other : RuleBank) : p.model other = .ok { m with bank := other } := by
  obtain ⟨hfaults, rfl⟩ := model_eq_ok h
  unfold Problem.model
  rw [hfaults]

/-- A built model is well formed. -/
theorem wellFormed_of_model {p : Problem} {bank : RuleBank} {m : Model}
    (h : p.model bank = .ok m) : m.WellFormed := by
  obtain ⟨hfaults, rfl⟩ := model_eq_ok h
  obtain ⟨hcount, hranks⟩ := List.append_eq_nil_iff.1 hfaults
  have hrange : 2 ≤ p.nodes ∧ p.nodes ≤ NodeSet.capacity := by
    unfold nodeCountFault at hcount
    split at hcount
    · assumption
    · cases hcount
  rw [if_neg (by omega)] at hranks
  obtain ⟨hlen, hneg, hzero, hends⟩ := rankFaults_eq_nil hranks
  have hle := le_of_endpointFaults_eq_nil hends (by omega)
  -- a node past the list counts as one of rank 0, which no endpoint is below
  have hget : ∀ node, p.ranks.getD node 0 ∈ p.ranks := by
    intro node
    by_cases hlt : node < p.ranks.length
    · rw [List.getD_eq_getElem _ _ hlt]
      exact List.getElem_mem hlt
    · rw [List.getD_eq_default _ _ (by omega)]
      exact hzero
  exact
    { two_le := hrange.1
      le_capacity := hrange.2
      ranks_eq := rfl
      length_values := hlen
      rank_nonneg := fun node => hneg _ (hget node)
      zero_mem := hzero
      rank_le_first := fun node => (hle _ (hget node)).1
      rank_le_last := fun node => by
        have hlast := (hle _ (hget node)).2
        rw [hlen] at hlast
        exact hlast }

/-- The table of a built model can be stored, as its horizon is clamped. -/
theorem storable_of_model {p : Problem} {bank : RuleBank} {m : Model}
    (h : p.model bank = .ok m) : m.Storable := by
  have hwf := wellFormed_of_model h
  obtain ⟨_, rfl⟩ := model_eq_ok h
  have hn : p.nodes ≤ 64 := hwf.le_capacity
  have hsquare : p.nodes * p.nodes ≤ 64 * 64 := Nat.mul_le_mul hn hn
  have hhorizon : min p.horizon (p.nodes * p.nodes) + 1 ≤ 4097 := by omega
  have htable := Nat.mul_le_mul hn hhorizon
  refine ⟨?_, ?_⟩
  · show p.nodes * (min p.horizon (p.nodes * p.nodes) + 1) < 1 <<< 60
    omega
  · show 3 * (min p.horizon (p.nodes * p.nodes) + 1) < 1 <<< 60
    omega

/-! ## Ranks of a well-formed model -/

namespace Model.WellFormed

variable {m : Model}

theorem rankOf_eq (hm : m.WellFormed) {node : Nat} (h : node < m.chain.nodes) :
    m.ranks.rankOf node = .ok (m.rank node) := by
  have hlt : node < m.ranks.values.length := hm.length_values ▸ h
  rw [Ranks.rankOf, lookUp_of_lt hlt, rank, List.getD_eq_getElem _ _ hlt]

theorem awaited_eq (hm : m.WellFormed) : m.ranks.awaited = m.ranks.values.map fun own =>
    NodeSet.ofList (m.chain.inner.filter fun other => m.rank other < own) :=
  congrArg Ranks.awaited hm.ranks_eq

theorem awaitedBy_eq (hm : m.WellFormed) {node : Nat} (h : node < m.chain.nodes) :
    m.ranks.awaitedBy node = .ok (m.awaited node) := by
  have hlt : node < m.ranks.awaited.length := by
    rw [hm.awaited_eq, List.length_map, hm.length_values]
    exact h
  rw [Ranks.awaitedBy, lookUp_of_lt hlt, awaited, List.getD_eq_getElem _ _ hlt]

theorem contains_awaited (hm : m.WellFormed) {node other : Nat} (h : node < m.chain.nodes) :
    (m.awaited node).contains other = true ↔ m.Waits node other := by
  have hlt : node < m.ranks.values.length := hm.length_values ▸ h
  have hcap := hm.le_capacity
  have hset : m.awaited node =
      NodeSet.ofList (m.chain.inner.filter fun other => m.rank other < m.rank node) := by
    rw [awaited, hm.awaited_eq, List.getD_eq_getElem _ _ (by simpa using hlt),
      List.getElem_map, rank, List.getD_eq_getElem _ _ hlt]
  rw [hset, NodeSet.contains_ofList, List.mem_filter, Chain.mem_inner, decide_eq_true_eq, Waits]
  constructor
  · exact And.left
  · intro hwaits
    have hinner := Chain.isInner_iff.1 hwaits.1
    exact ⟨hwaits, by omega⟩

theorem awaited_isSubset_iff (hm : m.WellFormed) {node : Nat} (h : node < m.chain.nodes)
    {set : NodeSet} : (m.awaited node).isSubset set = true ↔
      ∀ other, m.Waits node other → set.contains other = true := by
  rw [NodeSet.isSubset_iff]
  simp only [hm.contains_awaited h]

/-- A node does not wait for itself. -/
theorem not_waits_self (node : Nat) : ¬ m.Waits node node := fun h => Int.lt_irrefl _ h.2

/-- A node that waits for another one has a positive rank. -/
theorem rank_pos_of_waits (hm : m.WellFormed) {node other : Nat} (h : m.Waits node other) :
    0 < m.rank node :=
  Int.lt_of_le_of_lt (hm.rank_nonneg other) h.2

/-- A node of rank 0 waits for nothing. -/
theorem not_waits_of_rank_zero (hm : m.WellFormed) {node other : Nat} (hzero : m.rank node = 0) :
    ¬ m.Waits node other := by
  intro hwaits
  have hpos := hm.rank_pos_of_waits hwaits
  omega

/-- Both endpoints are nodes of the chain. -/
theorem first_lt (hm : m.WellFormed) : 0 < m.chain.nodes :=
  Nat.lt_of_lt_of_le (by decide) hm.two_le

theorem farEnd_lt (hm : m.WellFormed) : m.chain.farEnd < m.chain.nodes := by
  have htwo := hm.two_le
  unfold Chain.farEnd
  omega

theorem sequence_eq (hm : m.WellFormed) :
    m.ranks.sequence = sorted (Ranks.precedes m.ranks.values) m.chain.inner :=
  congrArg Ranks.sequence hm.ranks_eq

theorem mem_sequence (hm : m.WellFormed) {node : Nat} :
    node ∈ m.ranks.sequence ↔ m.chain.isInner node = true := by
  rw [hm.sequence_eq, mem_sorted, Chain.mem_inner]

theorem nodup_sequence (hm : m.WellFormed) : m.ranks.sequence.Nodup := by
  rw [hm.sequence_eq, (sorted_perm _ _).nodup_iff]
  exact Chain.nodup_inner _

/-- The endpoints are not in the order of the ranks. -/
theorem length_sequence_lt (hm : m.WellFormed) : m.ranks.sequence.length < m.chain.nodes := by
  have htwo := hm.two_le
  rw [hm.sequence_eq, (sorted_perm _ _).length_eq, Chain.inner, List.length_range']
  omega

/-- The order of the ranks is strict; nodes of one rank are ordered by id. -/
theorem sequence_ascending (hm : m.WellFormed) : m.ranks.sequence.Pairwise fun a b =>
    m.rank a < m.rank b ∨ (m.rank a = m.rank b ∧ a < b) := by
  have hprecedes : ∀ a b : Nat, Ranks.precedes m.ranks.values a b = true ↔
      m.rank a < m.rank b ∨ (m.rank a = m.rank b ∧ a ≤ b) := by
    intro a b
    simp [Ranks.precedes, rank]
  have hsorted : m.ranks.sequence.Pairwise (Ranks.precedes m.ranks.values · · = true) := by
    rw [hm.sequence_eq]
    refine pairwise_sorted (fun a b => ?_) (fun a b c hab hbc => ?_) _
    · rw [hprecedes, hprecedes]
      omega
    · rw [hprecedes] at hab hbc ⊢
      omega
  refine (hsorted.and hm.nodup_sequence).imp fun {a b} hboth => ?_
  have hbefore := (hprecedes a b).1 hboth.1
  have hne := hboth.2
  omega

/-- So a node never comes before one that it waits for. -/
theorem pairwise_sequence (hm : m.WellFormed) :
    m.ranks.sequence.Pairwise fun earlier later => ¬ m.Waits earlier later := by
  refine hm.sequence_ascending.imp fun {a b} hbefore hwaits => ?_
  have hlt := hwaits.2
  omega

/-- In the order of the ranks, what a node waits for comes before it. -/
theorem mem_of_waits (hm : m.WellFormed) {known rest : List Nat} {node other : Nat}
    (hsplit : m.ranks.sequence = known ++ node :: rest) (hwaits : m.Waits node other) :
    other ∈ known := by
  have hpair := hm.pairwise_sequence
  rw [hsplit] at hpair
  have hlate : ∀ other ∈ rest, ¬ m.Waits node other :=
    (List.pairwise_cons.1 (List.pairwise_append.1 hpair).2.1).1
  have hmem := hm.mem_sequence.2 hwaits.1
  rw [hsplit, List.mem_append, List.mem_cons] at hmem
  rcases hmem with hold | rfl | hmem
  · exact hold
  · exact absurd hwaits (not_waits_self other)
  · exact absurd hwaits (hlate other hmem)

theorem not_mem_of_sequence_eq (hm : m.WellFormed) {known rest : List Nat} {node : Nat}
    (hsplit : m.ranks.sequence = known ++ node :: rest) : node ∉ known := by
  have hnodup := hm.nodup_sequence
  rw [hsplit] at hnodup
  intro hmem
  exact (List.nodup_append.1 hnodup).2.2 node hmem node (by simp) rfl

/-- Neither the horizon nor the bank has anything to do with it. -/
theorem congr (hm : m.WellFormed) {m' : Model} (hchain : m'.chain = m.chain)
    (hranks : m'.ranks = m.ranks) : m'.WellFormed := by
  obtain ⟨chain, ranks, horizon, bank⟩ := m
  obtain ⟨chain', ranks', horizon', bank'⟩ := m'
  cases hchain
  cases hranks
  exact
    { two_le := hm.two_le
      le_capacity := hm.le_capacity
      ranks_eq := hm.ranks_eq
      length_values := hm.length_values
      rank_nonneg := hm.rank_nonneg
      zero_mem := hm.zero_mem
      rank_le_first := hm.rank_le_first
      rank_le_last := hm.rank_le_last }

/-- An endpoint of rank 0 means that every rank is 0. -/
theorem rank_eq_zero_of_end (hm : m.WellFormed) {node : Nat} (hlt : node < m.chain.nodes)
    (hend : m.chain.isInner node = false) (hzero : m.rank node = 0) (other : Nat) :
    m.rank other = 0 := by
  have hnonneg := hm.rank_nonneg other
  have hfirst := hm.rank_le_first other
  have hlast := hm.rank_le_last other
  have houter : ¬ (0 < node ∧ node + 1 < m.chain.nodes) := by
    rw [← Chain.isInner_iff, hend]
    decide
  have hcase : node = 0 ∨ node = m.chain.farEnd := by
    unfold Chain.farEnd
    omega
  rcases hcase with rfl | rfl <;> omega

/-- So a node of rank 0 stands between the endpoints if some rank is positive. -/
theorem isInner_of_rank_zero (hm : m.WellFormed) {node other : Nat} (hlt : node < m.chain.nodes)
    (hzero : m.rank node = 0) (hpos : 0 < m.rank other) : m.chain.isInner node = true := by
  cases hend : m.chain.isInner node with
  | true => rfl
  | false =>
      have hall := hm.rank_eq_zero_of_end hlt hend hzero other
      omega

end Model.WellFormed

end ChainPropagation
