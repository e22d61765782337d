import ChainPropagation.Proofs.WellFormed

/-!
# Two ways to construct

A chain and its ranks are checked in two places.  `Problem.model` collects all faults
of a problem; `Chain.ofNodes` and `Ranks.ofList` stop at the first one, the chain
before the ranks.  Both accept exactly the problems that are proper
(`Problem.IsProper`), and then they make the same chain and the same ranks.

What was made that way is arranged as everything that goes through it relies on
(`Ranks.Arranged`): whatever a node waits for comes before it, no endpoint is waited
for, and there is a node to begin with.

Main result: `construction_agrees`.
-/

namespace ChainPropagation

/-! ## Proper problems -/

/-- A problem with which nothing is wrong. -/
structure Problem.IsProper (p : Problem) : Prop where
  two_le : 2 ≤ p.nodes
  le_capacity : p.nodes ≤ NodeSet.capacity
  length_ranks : p.ranks.length = p.nodes
  nonneg : ∀ rank ∈ p.ranks, 0 ≤ rank
  zero_mem : 0 ∈ p.ranks
  first_highest : p.ranks.head? = p.ranks.max?
  last_highest : p.ranks.getLast? = p.ranks.max?

theorem nodeCountFault_eq_none_iff {nodes : Nat} :
    nodeCountFault nodes = none ↔ 2 ≤ nodes ∧ nodes ≤ NodeSet.capacity := by
  unfold nodeCountFault
  split
  · exact iff_of_true rfl ‹_›
  · exact iff_of_false nofun ‹_›

/-- Nothing is wrong with the endpoints if they have the highest rank. -/
theorem endpointFaults_eq_nil_iff {ranks : List Int} :
    endpointFaults ranks = [] ↔ ranks.head? = ranks.max? ∧ ranks.getLast? = ranks.max? := by
  unfold endpointFaults
  cases hmax : ranks.max? with
  | none =>
      rw [List.max?_eq_none_iff] at hmax
      subst hmax
      exact iff_of_true rfl ⟨rfl, rfl⟩
  | some highest =>
      have hpos : 0 < ranks.length :=
        List.length_pos_of_mem (List.max?_eq_some_iff.1 hmax).1
      have hrank : ∀ endpoint < ranks.length,
          ranks.getD endpoint highest = highest ↔ ranks[endpoint]? = some highest := by
        intro endpoint hlt
        rw [List.getD_eq_getElem _ _ hlt, List.getElem?_eq_getElem hlt, Option.some.injEq]
      rw [List.head?_eq_getElem?, List.getLast?_eq_getElem?, ← hrank 0 hpos,
        ← hrank (ranks.length - 1) (by omega), List.filterMap_eq_nil_iff]
      simp

theorem rankFaults_eq_nil_iff {ranks : List Int} {nodes : Nat} :
    rankFaults ranks nodes = [] ↔ ranks.length = nodes ∧ (∀ rank ∈ ranks, 0 ≤ rank) ∧
      0 ∈ ranks ∧ ranks.head? = ranks.max? ∧ ranks.getLast? = ranks.max? := by
  constructor
  · intro h
    obtain ⟨hlength, hnonneg, hzero, hends⟩ := rankFaults_eq_nil h
    exact ⟨hlength, hnonneg, hzero, endpointFaults_eq_nil_iff.1 hends⟩
  · rintro ⟨hlength, hnonneg, hzero, hends⟩
    have hnegative : ranks.zipIdx.filter (·.1 < 0) = [] := by
      rw [List.filter_eq_nil_iff]
      rintro ⟨rank, node⟩ hmem
      have hrank : rank ∈ ranks :=
        List.mem_of_getElem? (List.mk_mem_zipIdx_iff_getElem?.1 hmem)
      simp [hnonneg rank hrank]
    rw [rankFaults, if_neg (not_not_intro hlength), hnegative, endpointFaults_eq_nil_iff.2 hends,
      if_pos (List.contains_iff_mem.2 hzero)]
    rfl

theorem ofNodes_eq_ok_iff {nodes : Nat} {c : Chain} : Chain.ofNodes nodes = .ok c ↔
    2 ≤ nodes ∧ nodes ≤ NodeSet.capacity ∧ c = { nodes } := by
  rw [← and_assoc, ← nodeCountFault_eq_none_iff, Chain.ofNodes]
  cases nodeCountFault nodes with
  | some fault => simp
  | none => simp [eq_comm]

theorem ofList_eq_ok_iff {c : Chain} {ranks : List Int} {r : Ranks} :
    Ranks.ofList c ranks = .ok r ↔ rankFaults ranks c.nodes = [] ∧ r = .assign c ranks := by
  rw [Ranks.ofList]
  cases rankFaults ranks c.nodes with
  | cons fault faults => simp
  | nil => simp [eq_comm]

namespace Problem

variable {p : Problem}

theorem isProper_iff : p.IsProper ↔ (2 ≤ p.nodes ∧ p.nodes ≤ NodeSet.capacity) ∧
    rankFaults p.ranks p.nodes = [] := by
  rw [rankFaults_eq_nil_iff]
  constructor
  · intro h
    exact ⟨⟨h.two_le, h.le_capacity⟩, h.length_ranks, h.nonneg, h.zero_mem, h.first_highest,
      h.last_highest⟩
  · rintro ⟨⟨htwo, hcapacity⟩, hlength, hnonneg, hzero, hfirst, hlast⟩
    exact ⟨htwo, hcapacity, hlength, hnonneg, hzero, hfirst, hlast⟩

theorem faults_eq_nil_iff : p.faults = [] ↔ p.IsProper := by
  have hcount : (nodeCountFault p.nodes).toList = [] ↔
      2 ≤ p.nodes ∧ p.nodes ≤ NodeSet.capacity := by
    rw [Option.toList_eq_nil_iff, nodeCountFault_eq_none_iff]
  rw [isProper_iff, faults, inputFaults, List.append_eq_nil_iff, hcount]
  refine and_congr_right fun hrange => ?_
  rw [if_neg (by omega)]

theorem exists_model_iff (bank : RuleBank) : (∃ m, p.model bank = .ok m) ↔ p.IsProper := by
  rw [← faults_eq_nil_iff, model]
  cases p.faults with
  | nil => simp
  | cons fault faults => simp

theorem exists_ofList_iff : (∃ c, Chain.ofNodes p.nodes = .ok c ∧ ∃ r,
    Ranks.ofList c p.ranks = .ok r) ↔ p.IsProper := by
  simp only [isProper_iff, ofNodes_eq_ok_iff, ofList_eq_ok_iff, and_assoc]
  simp

/-- What the two steps make is what the model has. -/
theorem model_eq_of_ofList (bank : RuleBank) {c : Chain} {r : Ranks}
    (hc : Chain.ofNodes p.nodes = .ok c) (hr : Ranks.ofList c p.ranks = .ok r) : p.model bank =
      .ok { chain := c, ranks := r, horizon := min p.horizon (p.nodes * p.nodes), bank } := by
  obtain ⟨m, hm⟩ := (exists_model_iff bank).2 (exists_ofList_iff.1 ⟨c, hc, r, hr⟩)
  obtain ⟨_, _, rfl⟩ := ofNodes_eq_ok_iff.1 hc
  obtain ⟨_, rfl⟩ := ofList_eq_ok_iff.1 hr
  obtain ⟨_, rfl⟩ := model_eq_ok hm
  exact hm

end Problem

/-! ## Ranks in order -/

/-- The ranks of a chain as everything that goes through them relies on. -/
structure Ranks.Arranged (c : Chain) (r : Ranks) : Prop where
  /-- each intermediate node is listed once, and no other node -/
  lists_each : ∀ node, r.sequence.count node = if c.isInner node then 1 else 0
  ascending : r.sequence.Pairwise fun a b => ∃ x y, r.rankOf a = .ok x ∧ r.rankOf b = .ok y ∧
    (x < y ∨ (x = y ∧ a < b))
  awaited_before : ∀ known node rest, r.sequence = known ++ node :: rest →
    ∃ awaited, r.awaitedBy node = .ok awaited ∧
      ∀ other, awaited.contains other = true → other ∈ known
  /-- no intermediate node waits for an endpoint -/
  awaited_eq_below : ∀ node, c.isInner node = true →
    ∃ awaited, r.awaitedBy node = .ok awaited ∧ r.below node = .ok awaited
  some_begin : 3 ≤ c.nodes → ∃ node, c.isInner node = true ∧ r.rankOf node = .ok 0
  others_wait : ∀ node rank, c.isInner node = true → r.rankOf node = .ok rank → 0 < rank →
    ∃ awaited other, r.awaitedBy node = .ok awaited ∧ awaited.contains other = true

namespace Model.WellFormed

variable {m : Model} {node other : Nat}

/-- In a chain with intermediate nodes one of them has rank 0. -/
theorem exists_rank_zero (hm : m.WellFormed) (hthree : 3 ≤ m.chain.nodes) :
    ∃ node, m.chain.isInner node = true ∧ m.rank node = 0 := by
  obtain ⟨node, hlt, hvalue⟩ := List.getElem_of_mem hm.zero_mem
  have hzero : m.rank node = 0 := by
    rw [rank, List.getD_eq_getElem _ _ hlt, hvalue]
  rw [hm.length_values] at hlt
  cases hinner : m.chain.isInner node with
  | true => exact ⟨node, hinner, hzero⟩
  | false =>
      -- it is an endpoint, so that all ranks are 0
      refine ⟨1, Chain.isInner_iff.2 ⟨by decide, by omega⟩, ?_⟩
      exact hm.rank_eq_zero_of_end hlt hinner hzero 1

/-- A lower rank than that of an intermediate node is not that of an endpoint. -/
theorem waits_iff (hm : m.WellFormed) (hother : other < m.chain.nodes) :
    m.Waits node other ↔ m.rank other < m.rank node := by
  refine ⟨And.right, fun hless => ⟨?_, hless⟩⟩
  have hfirst := hm.rank_le_first node
  have hlast := hm.rank_le_last node
  rw [Chain.isInner_iff]
  have hnotFirst : other ≠ 0 := fun heq => by
    rw [heq] at hless
    omega
  have hnotLast : other ≠ m.chain.farEnd := fun heq => by
    rw [heq] at hless
    omega
  unfold Chain.farEnd at hnotLast
  omega

/-- The nodes whose rank has a property form a set. -/
theorem nodesWith_eq (hm : m.WellFormed) (property : Nat → Int → Bool) :
    ∃ set, m.ranks.nodesWith property = .ok set ∧ ∀ other, set.contains other = true ↔
      other < m.chain.nodes ∧ property other (m.rank other) = true := by
  let ids := (m.ranks.values.zipIdx.filter fun entry => property entry.2 entry.1).map (·.2)
  have hids : ∀ other, other ∈ ids ↔
      other < m.chain.nodes ∧ property other (m.rank other) = true := by
    intro other
    simp only [ids, List.mem_map, List.mem_filter, Prod.exists, exists_eq_right,
      List.mk_mem_zipIdx_iff_getElem?]
    constructor
    · rintro ⟨rank, hat, hproperty⟩
      obtain ⟨hlt, rfl⟩ := List.getElem?_eq_some_iff.1 hat
      rw [Model.rank, List.getD_eq_getElem _ _ hlt, ← hm.length_values]
      exact ⟨hlt, hproperty⟩
    · rintro ⟨hlt, hproperty⟩
      rw [← hm.length_values] at hlt
      rw [Model.rank, List.getD_eq_getElem _ _ hlt] at hproperty
      exact ⟨_, List.getElem?_eq_getElem hlt, hproperty⟩
  have hfits : ∀ other ∈ ids, other < NodeSet.capacity := fun other hother =>
    Nat.lt_of_lt_of_le ((hids other).1 hother).1 hm.le_capacity
  refine ⟨.ofList ids, NodeSet.collect_eq hfits, fun other => ?_⟩
  rw [NodeSet.contains_ofList, ← hids]
  exact and_iff_left_of_imp (hfits other)

/-- The nodes below a node, endpoints included, are those that it waits for. -/
theorem below_eq (hm : m.WellFormed) (hnode : node < m.chain.nodes) :
    m.ranks.below node = .ok (m.awaited node) := by
  obtain ⟨set, hset, hcontains⟩ := hm.nodesWith_eq fun _ rank => rank < m.rank node
  have hsame : set = m.awaited node := by
    rw [NodeSet.eq_iff_contains]
    intro other
    rw [hcontains, hm.contains_awaited hnode, decide_eq_true_eq]
    constructor
    · exact fun hboth => (hm.waits_iff hboth.1).2 hboth.2
    · exact fun hwaits => ⟨Chain.lt_of_isInner hwaits.1, hwaits.2⟩
  rw [Ranks.below, hm.rankOf_eq hnode, ok_bind, hset, hsame]

/-- The ranks of a well-formed model are in order. -/
theorem arranged (hm : m.WellFormed) : m.ranks.Arranged m.chain where
  lists_each := by
    intro node
    split
    · exact List.count_eq_one_of_mem hm.nodup_sequence (hm.mem_sequence.2 ‹_›)
    · exact List.count_eq_zero.2 fun hmem => absurd (hm.mem_sequence.1 hmem) ‹_›
  ascending := by
    refine hm.sequence_ascending.imp_of_mem fun {a b} ha hb hbefore => ?_
    exact ⟨m.rank a, m.rank b, hm.rankOf_eq (Chain.lt_of_isInner (hm.mem_sequence.1 ha)),
      hm.rankOf_eq (Chain.lt_of_isInner (hm.mem_sequence.1 hb)), hbefore⟩
  awaited_before := by
    intro known node rest hsplit
    have hlt : node < m.chain.nodes :=
      Chain.lt_of_isInner (hm.mem_sequence.1 (by simp [hsplit]))
    exact ⟨m.awaited node, hm.awaitedBy_eq hlt, fun other hother =>
      hm.mem_of_waits hsplit ((hm.contains_awaited hlt).1 hother)⟩
  awaited_eq_below := by
    intro node hinner
    have hlt := Chain.lt_of_isInner hinner
    exact ⟨m.awaited node, hm.awaitedBy_eq hlt, hm.below_eq hlt⟩
  some_begin := by
    intro hthree
    obtain ⟨node, hinner, hzero⟩ := hm.exists_rank_zero hthree
    refine ⟨node, hinner, ?_⟩
    rw [hm.rankOf_eq (Chain.lt_of_isInner hinner), hzero]
  others_wait := by
    intro node rank hinner hrank hpos
    have hlt := Chain.lt_of_isInner hinner
    rw [hm.rankOf_eq hlt] at hrank
    cases hrank
    obtain ⟨other, hother, hzero⟩ := hm.exists_rank_zero (by
      have hrange := Chain.isInner_iff.1 hinner
      omega)
    refine ⟨m.awaited node, other, hm.awaitedBy_eq hlt, (hm.contains_awaited hlt).2 ⟨hother, ?_⟩⟩
    rw [hzero]
    exact hpos

end Model.WellFormed

/-- A problem has a model, under any bank, exactly if its chain and its ranks can be made
one after the other, and exactly if it is proper.  The model has the same chain and the
same ranks then, and these are in order. -/
theorem construction_agrees (p : Problem) (bank : RuleBank) :
    ((∃ m, p.model bank = .ok m) ↔
        ∃ c, Chain.ofNodes p.nodes = .ok c ∧ ∃ r, Ranks.ofList c p.ranks = .ok r) ∧
      ((∃ m, p.model bank = .ok m) ↔ p.IsProper) ∧
      ∀ c r, Chain.ofNodes p.nodes = .ok c → Ranks.ofList c p.ranks = .ok r →
        (∃ m, p.model bank = .ok m ∧ m.chain = c ∧ m.ranks = r) ∧ r.Arranged c := by
  refine ⟨(Problem.exists_model_iff bank).trans Problem.exists_ofList_iff.symm,
    Problem.exists_model_iff bank, fun c r hc hr => ?_⟩
  have hbuilt := Problem.model_eq_of_ofList bank hc hr
  exact ⟨⟨_, hbuilt, rfl, rfl⟩, (wellFormed_of_model hbuilt).arranged⟩

/-- Six nodes whose ranks go up and down. -/
def uneven : Problem := { nodes := 6, horizon := 9, ranks := [3, 2, 0, 1, 0, 3] }

/-- The nodes of rank 0 come first, then the others by their ranks. -/
theorem uneven_constructed : ∃ c r, Chain.ofNodes uneven.nodes = .ok c ∧
    Ranks.ofList c uneven.ranks = .ok r ∧ r.sequence = [2, 4, 3, 1] ∧
    (∃ m, uneven.model .standard = .ok m ∧ m.chain = c ∧ m.ranks = r) ∧ r.Arranged c := by
  have hc : Chain.ofNodes uneven.nodes = .ok { nodes := 6 } := rfl
  have hr : Ranks.ofList { nodes := 6 } uneven.ranks =
      .ok (.assign { nodes := 6 } uneven.ranks) := rfl
  exact ⟨_, _, hc, hr, by decide, (construction_agrees uneven .standard).2.2 _ _ hc hr⟩

end ChainPropagation
