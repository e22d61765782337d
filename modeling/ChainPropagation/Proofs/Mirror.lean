import ChainPropagation.Proofs.WellFormed

/-!
# The chain from the other end

Seen from the other end, each node of a chain stands where its opposite stood.  The
nodes between the endpoints stay between them, nodes side by side stay so, and no number
of hops changes; only the two endpoints change places.

A set of ids, the ranks of a problem and a model can be mirrored in the same way.  What
is asked of a mirrored thing at a node is stated here in terms of the thing itself at the
opposite node.  As long as ids are those of the chain, to mirror twice changes nothing,
so that whatever passes from a thing to its mirror image passes back.

## Main results

* `Problem.model_mirror` — the mirror image of a built model is the model of the reversed
  list of ranks.
* `rank_mirror`, `waits_mirror` — its ranks.
-/

namespace ChainPropagation

/-! ## Opposite nodes -/

namespace Chain

variable {c : Chain} {node other : Nat}

/-- The node that stands as far from the last node as this one from node 0. -/
def opposite (c : Chain) (node : Nat) : Nat := c.nodes - 1 - node

theorem opposite_lt (h : node < c.nodes) : c.opposite node < c.nodes := by
  unfold opposite
  omega

theorem opposite_opposite (h : node < c.nodes) : c.opposite (c.opposite node) = node := by
  unfold opposite
  omega

theorem opposite_inj (h : node < c.nodes) (hother : other < c.nodes) :
    c.opposite node = c.opposite other ↔ node = other := by
  unfold opposite
  omega

/-- Whatever is the opposite of a node has that node as its opposite. -/
theorem opposite_eq_iff (h : node < c.nodes) (hother : other < c.nodes) :
    c.opposite node = other ↔ node = c.opposite other := by
  unfold opposite
  omega

theorem opposite_zero (c : Chain) : c.opposite 0 = c.farEnd := rfl

theorem opposite_farEnd (c : Chain) : c.opposite c.farEnd = 0 := Nat.sub_self _

theorem isInner_opposite (h : node < c.nodes) : c.isInner (c.opposite node) = c.isInner node := by
  rw [Bool.eq_iff_iff, isInner_iff, isInner_iff, opposite]
  omega

theorem sideBySide_opposite (h : node < c.nodes) (hother : other < c.nodes) :
    c.sideBySide (c.opposite node) (c.opposite other) = c.sideBySide node other := by
  rw [Bool.eq_iff_iff, sideBySide_iff, sideBySide_iff, opposite, opposite]
  omega

theorem hops_opposite (h : node < c.nodes) (hother : other < c.nodes) :
    hops (c.opposite node) (c.opposite other) = hops node other := by
  unfold hops opposite
  omega

theorem mem_beside_opposite (h : node < c.nodes) (hother : other < c.nodes) :
    c.opposite other ∈ c.beside (c.opposite node) ↔ other ∈ c.beside node := by
  rw [mem_beside, mem_beside, opposite, opposite]
  omega

/-- To go through the opposites of all nodes is to go through all nodes. -/
theorem forall_opposite {holds : Nat → Prop} :
    (∀ node < c.nodes, holds (c.opposite node)) ↔ ∀ node < c.nodes, holds node := by
  constructor
  · intro h node hnode
    rw [← opposite_opposite hnode]
    exact h _ (opposite_lt hnode)
  · exact fun h node hnode => h _ (opposite_lt hnode)

theorem exists_opposite {holds : Nat → Prop} :
    (∃ node < c.nodes, holds (c.opposite node)) ↔ ∃ node < c.nodes, holds node := by
  constructor
  · rintro ⟨node, hnode, h⟩
    exact ⟨_, opposite_lt hnode, h⟩
  · rintro ⟨node, hnode, h⟩
    rw [← opposite_opposite hnode] at h
    exact ⟨_, opposite_lt hnode, h⟩

/-- From the other end the nodes come in reverse. -/
theorem map_opposite_range (c : Chain) :
    (List.range c.nodes).map c.opposite = (List.range c.nodes).reverse := by
  rw [List.range_eq_range', List.reverse_range']
  simp only [Nat.zero_add]
  rw [List.range_eq_range']
  rfl

end Chain

/-! ## Sets -/

namespace NodeSet

variable {c : Chain} {a b : NodeSet} {node : Nat}

/-- The opposites of those members that are nodes of a chain. -/
def mirror (c : Chain) (set : NodeSet) : NodeSet :=
  .ofList ((List.range c.nodes).filter fun node => set.contains (c.opposite node))

theorem contains_mirror (hcap : c.nodes ≤ capacity) :
    (a.mirror c).contains node = true ↔ node < c.nodes ∧ a.contains (c.opposite node) = true := by
  rw [mirror, contains_ofList, List.mem_filter, List.mem_range]
  constructor
  · exact And.left
  · exact fun hmem => ⟨hmem, Nat.lt_of_lt_of_le hmem.1 hcap⟩

/-- A set contains what its mirror image contains at the opposite place. -/
theorem contains_mirror_opposite (hcap : c.nodes ≤ capacity) (h : node < c.nodes) :
    (a.mirror c).contains (c.opposite node) = a.contains node := by
  rw [Bool.eq_iff_iff, contains_mirror hcap, Chain.opposite_opposite h]
  exact and_iff_right (Chain.opposite_lt h)

theorem mirror_mirror (hcap : c.nodes ≤ capacity)
    (hin : ∀ node, a.contains node = true → node < c.nodes) : (a.mirror c).mirror c = a := by
  rw [eq_iff_contains]
  intro node
  rw [contains_mirror hcap]
  constructor
  · rintro ⟨hlt, hmem⟩
    rwa [contains_mirror_opposite hcap hlt] at hmem
  · intro hmem
    have hlt := hin node hmem
    rw [contains_mirror_opposite hcap hlt]
    exact ⟨hlt, hmem⟩

@[simp] theorem mirror_empty (hcap : c.nodes ≤ capacity) : (∅ : NodeSet).mirror c = ∅ := by
  rw [eq_iff_contains]
  intro node
  rw [contains_mirror hcap]
  simp

theorem mirror_union (hcap : c.nodes ≤ capacity) : (a ∪ b).mirror c = a.mirror c ∪ b.mirror c := by
  rw [eq_iff_contains]
  intro node
  rw [contains_union, Bool.or_eq_true, contains_mirror hcap, contains_mirror hcap,
    contains_mirror hcap, contains_union, Bool.or_eq_true]
  exact and_or_left

theorem mirror_sdiff (hcap : c.nodes ≤ capacity) :
    (a \ b).mirror c = a.mirror c \ b.mirror c := by
  apply ext
  intro node
  rw [contains_sdiff]
  by_cases hlt : node < c.nodes
  · rw [← Chain.opposite_opposite hlt]
    have hback := Chain.opposite_lt hlt
    rw [contains_mirror_opposite hcap hback, contains_mirror_opposite hcap hback,
      contains_mirror_opposite hcap hback, contains_sdiff]
  · have hnone : ∀ set : NodeSet, (set.mirror c).contains node = false := by
      intro set
      rw [← Bool.not_eq_true, contains_mirror hcap]
      exact fun hmem => hlt hmem.1
    rw [hnone, hnone, Bool.false_and]

end NodeSet

theorem Chain.mirror_resultSet {c : Chain} (hcap : c.nodes ≤ NodeSet.capacity) :
    c.resultSet.mirror c = c.resultSet := by
  rw [NodeSet.eq_iff_contains]
  intro node
  rw [NodeSet.contains_mirror hcap, contains_resultSet hcap, contains_resultSet hcap]
  constructor
  · rintro ⟨hlt, hinner⟩
    rwa [isInner_opposite hlt] at hinner
  · intro hinner
    have hlt := lt_of_isInner hinner
    exact ⟨hlt, (isInner_opposite hlt).trans hinner⟩

/-! ## Problems and models -/

/-- The problem with the ranks in reverse. -/
def Problem.mirror (p : Problem) : Problem := { p with ranks := p.ranks.reverse }

/-- The model with the ranks in reverse. -/
def Model.mirror (m : Model) : Model :=
  { m with ranks := .assign m.chain m.ranks.values.reverse }

theorem max?_reverse (ranks : List Int) : ranks.reverse.max? = ranks.max? := by
  cases hmax : ranks.max? with
  | none =>
      rw [List.max?_eq_none_iff] at hmax
      rw [hmax]
      rfl
  | some highest =>
      rw [List.max?_eq_some_iff] at hmax ⊢
      simp only [List.mem_reverse]
      exact hmax

/-- The endpoints change places, and neither is worse off for it. -/
theorem endpointFaults_reverse {ranks : List Int} (h : endpointFaults ranks = []) :
    endpointFaults ranks.reverse = [] := by
  unfold endpointFaults at h ⊢
  rw [max?_reverse]
  split
  · rfl
  · rename_i highest hmax
    rw [hmax] at h
    have hpos : 0 < ranks.length := List.length_pos_of_mem (List.max?_eq_some_iff.1 hmax).1
    have hend : ∀ endpoint ∈ [0, ranks.length - 1], ranks.getD endpoint highest = highest := by
      intro endpoint hmem
      have hfault := List.filterMap_eq_nil_iff.1 h endpoint hmem
      by_contra hne
      simp only [if_neg hne] at hfault
      cases hfault
    have hfirst := hend 0 (by simp)
    have hlast := hend (ranks.length - 1) (by simp)
    rw [List.filterMap_eq_nil_iff, List.length_reverse]
    intro endpoint hmem
    have hrank : ranks.reverse.getD endpoint highest = highest := by
      rcases List.mem_cons.1 hmem with rfl | hmem
      · rw [List.getD_reverse _ hpos, Nat.sub_zero]
        exact hlast
      · rw [List.mem_singleton.1 hmem, List.getD_reverse _ (by omega), Nat.sub_self]
        exact hfirst
    simp only [hrank, if_true]

theorem rankFaults_reverse {ranks : List Int} {nodes : Nat} (h : rankFaults ranks nodes = []) :
    rankFaults ranks.reverse nodes = [] := by
  obtain ⟨hlength, hnonneg, hzero, hends⟩ := rankFaults_eq_nil h
  have hnegative : ranks.reverse.zipIdx.filter (·.1 < 0) = [] := by
    rw [List.filter_eq_nil_iff]
    rintro ⟨rank, node⟩ hmem
    have hrank : rank ∈ ranks := List.mem_reverse.1 (List.fst_mem_of_mem_zipIdx hmem)
    have hpos := hnonneg rank hrank
    simp only [decide_eq_true_eq]
    omega
  have hthere : ranks.reverse.contains 0 = true := by
    rw [List.contains_iff_mem, List.mem_reverse]
    exact hzero
  unfold rankFaults
  rw [List.length_reverse, if_neg (by omega), hnegative, hthere, endpointFaults_reverse hends]
  rfl

/-- The mirror image of a built model is the model of the mirrored problem. -/
theorem Problem.model_mirror {p : Problem} {bank : RuleBank} {m : Model}
    (h : p.model bank = .ok m) : p.mirror.model bank = .ok m.mirror := by
  obtain ⟨hfaults, rfl⟩ := model_eq_ok h
  obtain ⟨hcount, hranks⟩ := List.append_eq_nil_iff.1 hfaults
  have hmirrored : p.mirror.faults = [] := by
    unfold Problem.faults inputFaults
    rw [List.append_eq_nil_iff]
    refine ⟨hcount, ?_⟩
    show (if p.nodes = 0 then [] else rankFaults p.ranks.reverse p.nodes) = []
    split
    · rfl
    · rename_i hpos
      rw [if_neg hpos] at hranks
      exact rankFaults_reverse hranks
  unfold Problem.model
  rw [hmirrored]
  rfl

namespace Model

variable {m : Model} {node other : Nat}

@[simp] theorem chain_mirror (m : Model) : m.mirror.chain = m.chain := rfl

@[simp] theorem horizon_mirror (m : Model) : m.mirror.horizon = m.horizon := rfl

theorem mirror_mirror (hm : m.WellFormed) : m.mirror.mirror = m := by
  have hranks : m.mirror.mirror.ranks = m.ranks := by
    show Ranks.assign m.chain m.ranks.values.reverse.reverse = m.ranks
    rw [List.reverse_reverse]
    exact hm.ranks_eq.symm
  obtain ⟨chain, ranks, horizon, bank⟩ := m
  exact congrArg (fun ranks => (⟨chain, ranks, horizon, bank⟩ : Model)) hranks

/-- A node has the rank that its opposite had. -/
theorem rank_mirror (hm : m.WellFormed) (h : node < m.chain.nodes) :
    m.mirror.rank node = m.rank (m.chain.opposite node) := by
  show m.ranks.values.reverse.getD node 0 = m.ranks.values.getD (m.chain.nodes - 1 - node) 0
  rw [List.getD_reverse _ (hm.length_values ▸ h), hm.length_values]

theorem rank_mirror_opposite (hm : m.WellFormed) (h : node < m.chain.nodes) :
    m.mirror.rank (m.chain.opposite node) = m.rank node := by
  rw [rank_mirror hm (Chain.opposite_lt h), Chain.opposite_opposite h]

/-- A node past the end counts as one of rank 0. -/
theorem rank_mirror_of_le (hm : m.WellFormed) (h : m.chain.nodes ≤ node) :
    m.mirror.rank node = 0 := by
  have hpast : m.ranks.values.reverse.length ≤ node := by
    rw [List.length_reverse, hm.length_values]
    exact h
  exact List.getD_eq_default _ _ hpast

theorem wellFormed_mirror (hm : m.WellFormed) : m.mirror.WellFormed := by
  have hrank : ∀ node, ∃ other, m.mirror.rank node = m.rank other ∨ m.mirror.rank node = 0 := by
    intro node
    by_cases h : node < m.chain.nodes
    · exact ⟨_, .inl (rank_mirror hm h)⟩
    · exact ⟨0, .inr (rank_mirror_of_le hm (Nat.le_of_not_lt h))⟩
  have hfirst : m.mirror.rank 0 = m.rank m.chain.farEnd := rank_mirror hm hm.first_lt
  have hlast : m.mirror.rank m.chain.farEnd = m.rank 0 := rank_mirror_opposite hm hm.first_lt
  exact
    { two_le := hm.two_le
      le_capacity := hm.le_capacity
      ranks_eq := rfl
      length_values := (List.length_reverse).trans hm.length_values
      rank_nonneg := by
        intro node
        obtain ⟨other, heq | heq⟩ := hrank node
        · rw [heq]
          exact hm.rank_nonneg other
        · exact Int.le_of_eq heq.symm
      zero_mem := List.mem_reverse.2 hm.zero_mem
      rank_le_first := by
        intro node
        rw [hfirst]
        obtain ⟨other, heq | heq⟩ := hrank node
        · rw [heq]
          exact hm.rank_le_last other
        · rw [heq]
          exact hm.rank_nonneg _
      rank_le_last := by
        intro node
        rw [chain_mirror, hlast]
        obtain ⟨other, heq | heq⟩ := hrank node
        · rw [heq]
          exact hm.rank_le_first other
        · rw [heq]
          exact hm.rank_nonneg _ }

theorem storable_mirror (hs : m.Storable) : m.mirror.Storable := ⟨hs.table, hs.times⟩

/-- A node waits for those whose opposites its own opposite waited for. -/
theorem waits_mirror (hm : m.WellFormed) (h : node < m.chain.nodes) :
    m.mirror.Waits node other ↔
      other < m.chain.nodes ∧ m.Waits (m.chain.opposite node) (m.chain.opposite other) := by
  unfold Waits
  constructor
  · rintro ⟨hinner, hlt⟩
    have hother : other < m.chain.nodes := Chain.lt_of_isInner hinner
    rw [rank_mirror hm h, rank_mirror hm hother] at hlt
    exact ⟨hother, (Chain.isInner_opposite hother).trans hinner, hlt⟩
  · rintro ⟨hother, hinner, hlt⟩
    rw [rank_mirror hm h, rank_mirror hm hother]
    exact ⟨(Chain.isInner_opposite hother).symm.trans hinner, hlt⟩

end Model

end ChainPropagation
