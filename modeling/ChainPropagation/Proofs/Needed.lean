import ChainPropagation.Proofs.Step

/-!
# What a draft still needs

For each endpoint the measure `stillNeeded` takes the largest number of hops
that a missing result is away.  `Draft.Within` says the same without any
search for the nearest node: it bounds this number from above.

A message moves results one hop, so it brings one of the two numbers down by at
most one and leaves the other one alone (`Consistent.within_of_sent`); time and
executions change neither (`Consistent.within_of_delivered`, `Opens.within`).
Hence the messages sent together with those still needed never become fewer, in
whichever order the draft executes, sends and lets time pass (`Draft.AtLeast`).
-/

namespace ChainPropagation

/-! ## The nearest node -/

/-- Among entries that get farther and farther away the first one found is the
nearest. -/
theorem dist_find?_le_iff {α : Type} {entries : List α} {dist : α → Nat} {has : α → Bool}
    (hfarther : entries.Pairwise fun a b => dist a ≤ dist b) (default : α) (most : Nat) :
    dist ((entries.find? has).getD default) ≤ most ↔
      (∃ a ∈ entries, has a = true ∧ dist a ≤ most) ∨
        ((∀ a ∈ entries, ¬ has a = true) ∧ dist default ≤ most) := by
  induction entries with
  | nil => simp
  | cons a entries ih =>
      obtain ⟨hfirst, hrest⟩ := List.pairwise_cons.1 hfarther
      rw [List.find?_cons]
      cases hhas : has a with
      | true =>
          constructor
          · intro hle
            exact .inl ⟨a, by simp, hhas, hle⟩
          · intro hfound
            rcases hfound with ⟨b, hb, _, hle⟩ | ⟨hnone, _⟩
            · rcases List.mem_cons.1 hb with rfl | hb
              · exact hle
              · exact Nat.le_trans (hfirst b hb) hle
            · exact absurd hhas (hnone a (by simp))
      | false =>
          refine (ih hrest).trans ?_
          simp [hhas]

theorem foldl_max_le_iff {numbers : List Nat} {start most : Nat} :
    numbers.foldl max start ≤ most ↔ start ≤ most ∧ ∀ n ∈ numbers, n ≤ most := by
  induction numbers generalizing start with
  | nil => simp
  | cons n numbers ih =>
      rw [List.foldl_cons, ih, List.forall_mem_cons, Nat.max_le, and_assoc]

namespace Draft

variable {m : Model} {d e f : Draft}

/-- The first of some nodes that has a result or will have it next; the node of the result
itself if none of them has. -/
def nearest (d : Draft) (order : List Nat) (origin : Nat) : Nat :=
  (order.find? fun node => (d.holdingNext node).contains origin).getD origin

/-- How far from node 0 the nearest node stands that has a result or will have
it next; its own node if none has it. -/
def hopsFromFirst (d : Draft) (nodes origin : Nat) : Nat := d.nearest (List.range nodes) origin

/-- How far from the last node the nearest node stands that has a result or
will have it next; its own node if none has it. -/
def hopsFromLast (d : Draft) (nodes origin : Nat) : Nat :=
  nodes - 1 - d.nearest (List.range nodes).reverse origin

theorem nearest_lt {order : List Nat} {nodes origin : Nat} (horder : ∀ node ∈ order, node < nodes)
    (horigin : origin < nodes) : d.nearest order origin < nodes := by
  unfold nearest
  cases hfound : order.find? fun node => (d.holdingNext node).contains origin with
  | none => exact horigin
  | some node => exact horder node (List.mem_of_find?_eq_some hfound)

/-- No result that an endpoint misses is more than so many hops away from it. -/
def Within (m : Model) (d : Draft) (endpoint most : Nat) : Prop :=
  ∀ result, m.chain.isInner result = true →
    ¬ (d.holdingNext endpoint).contains result = true →
      (∃ holder, (d.holdingNext holder).contains result = true ∧
        Chain.hops holder endpoint ≤ most) ∨
      ((∀ holder, ¬ (d.holdingNext holder).contains result = true) ∧
        Chain.hops result endpoint ≤ most)

theorem Consistent.lt_of_holdingNext (h : d.Consistent m) {node result : Nat}
    (hnext : (d.holdingNext node).contains result = true) : node < m.chain.nodes :=
  h.lt_of_holds ((h.holds_next node result).2 hnext)

/-- Only results of nodes that executed are on their way. -/
theorem Consistent.executed_of_holdingNext (h : d.Consistent m) {node result : Nat}
    (hnext : (d.holdingNext node).contains result = true) :
    ∃ time, d.executedAt result = some time := by
  obtain ⟨time, hexec, _⟩ := ((h.holds_next node result).2 hnext).executed
  exact ⟨time, h.mem_events.1 hexec⟩

/-- An endpoint that misses nothing has all results or will have them next. -/
theorem within_zero_iff {endpoint : Nat} (hend : m.chain.isInner endpoint = false) :
    d.Within m endpoint 0 ↔ ∀ result, m.chain.isInner result = true →
      (d.holdingNext endpoint).contains result = true := by
  constructor
  · intro hwithin result hinner
    by_cases hnext : (d.holdingNext endpoint).contains result = true
    · exact hnext
    · rcases hwithin result hinner hnext with ⟨holder, hholder, hle⟩ | ⟨_, hle⟩
      · have hat : holder = endpoint := by
          unfold Chain.hops at hle
          omega
        exact hat ▸ hholder
      · -- a node of the middle is no endpoint
        have hat : result = endpoint := by
          unfold Chain.hops at hle
          omega
        rw [hat, hend] at hinner
        cases hinner
  · exact fun hall result hinner hmissing => absurd (hall result hinner) hmissing

/-- A way through the nodes, away from an endpoint, and the hops from that
endpoint to the first node on it that holds a result. -/
structure Approaches (m : Model) (d : Draft) (endpoint : Nat) (order : List Nat)
    (hops : Nat → Nat) : Prop where
  mem_iff : ∀ node, node ∈ order ↔ node < m.chain.nodes
  farther : order.Pairwise fun a b => Chain.hops a endpoint ≤ Chain.hops b endpoint
  hops_eq : ∀ result, m.chain.isInner result = true → hops result =
    Chain.hops ((order.find? fun node => (d.holdingNext node).contains result).getD result) endpoint

theorem approaches_first (m : Model) (d : Draft) :
    d.Approaches m 0 (List.range m.nodes) (d.hopsFromFirst m.nodes) :=
  { mem_iff := fun node => List.mem_range
    farther := by
      apply List.pairwise_lt_range.imp
      intro a b hlt
      unfold Chain.hops
      omega
    hops_eq := by
      intro result _
      rw [hopsFromFirst, nearest, Chain.hops]
      omega }

theorem approaches_last (m : Model) (d : Draft) :
    d.Approaches m m.chain.farEnd (List.range m.nodes).reverse (d.hopsFromLast m.nodes) :=
  { mem_iff := fun node => List.mem_reverse.trans List.mem_range
    farther := by
      rw [List.pairwise_reverse]
      apply List.pairwise_lt_range.imp_of_mem
      intro a b _ hb hlt
      have hrange : b < m.chain.nodes := List.mem_range.1 hb
      unfold Chain.hops Chain.farEnd
      omega
    hops_eq := by
      intro result hinner
      have hrange := Chain.isInner_iff.1 hinner
      have hnearest : d.nearest (List.range m.chain.nodes).reverse result < m.chain.nodes :=
        nearest_lt (fun node hnode => List.mem_range.1 (List.mem_reverse.1 hnode)) (by omega)
      show m.chain.nodes - 1 - d.nearest (List.range m.chain.nodes).reverse result =
        Chain.hops (d.nearest (List.range m.chain.nodes).reverse result) m.chain.farEnd
      unfold Chain.hops Chain.farEnd
      omega }

theorem Approaches.hops_le_iff {endpoint : Nat} {order : List Nat} {hops : Nat → Nat}
    (happroach : d.Approaches m endpoint order hops) (h : d.Consistent m) {result most : Nat}
    (hinner : m.chain.isInner result = true) : hops result ≤ most ↔
      (∃ holder, (d.holdingNext holder).contains result = true ∧
        Chain.hops holder endpoint ≤ most) ∨
      ((∀ holder, ¬ (d.holdingNext holder).contains result = true) ∧
        Chain.hops result endpoint ≤ most) := by
  have hplace : ∀ {holder}, (d.holdingNext holder).contains result = true → holder ∈ order :=
    fun hnext => (happroach.mem_iff _).2 (h.lt_of_holdingNext hnext)
  rw [happroach.hops_eq result hinner, dist_find?_le_iff happroach.farther]
  apply or_congr
  · constructor
    · rintro ⟨holder, _, hnext, hle⟩
      exact ⟨holder, hnext, hle⟩
    · rintro ⟨holder, hnext, hle⟩
      exact ⟨holder, hplace hnext, hnext, hle⟩
  · apply and_congr_left
    intro _
    constructor
    · intro hnone holder hnext
      exact hnone holder (hplace hnext) hnext
    · intro hnone holder _
      exact hnone holder

/-- The measure of one endpoint, whichever way the nodes are gone through. -/
theorem Approaches.foldl_hops_le_iff {endpoint : Nat} {order : List Nat} {hops : Nat → Nat}
    (happroach : d.Approaches m endpoint order hops) (h : d.Consistent m) (hm : m.WellFormed)
    (most : Nat) :
    ((m.chain.resultSet \ d.holdingNext endpoint).toList.map hops).foldl max 0 ≤ most ↔
      d.Within m endpoint most := by
  have hmissing : ∀ result, result ∈ (m.chain.resultSet \ d.holdingNext endpoint).toList ↔
      m.chain.isInner result = true ∧ ¬ (d.holdingNext endpoint).contains result = true := by
    intro result
    rw [NodeSet.mem_toList, NodeSet.contains_sdiff, Bool.and_eq_true, Bool.not_eq_true',
      Chain.contains_resultSet hm.le_capacity, Bool.not_eq_true]
  rw [foldl_max_le_iff, List.forall_mem_map, and_iff_right (Nat.zero_le most)]
  constructor
  · intro hall result hinner hmiss
    exact (happroach.hops_le_iff h hinner).1 (hall result ((hmissing result).2 ⟨hinner, hmiss⟩))
  · intro hwithin result hresult
    obtain ⟨hinner, hmiss⟩ := (hmissing result).1 hresult
    exact (happroach.hops_le_iff h hinner).2 (hwithin result hinner hmiss)

/-! ### It is found without a fault -/

theorem lookUp_holdingNext (nodes : Nat) {node : Nat} (hnode : node < nodes) :
    lookUp ((List.range nodes).map d.holdingNext) node = .ok (d.holdingNext node) := by
  have hlt : node < ((List.range nodes).map d.holdingNext).length := by
    rw [List.length_map, List.length_range]
    exact hnode
  rw [lookUp_of_lt hlt, List.getElem_map, List.getElem_range]

theorem nearestHolder_eq {nodes : Nat} {order : List Nat} (horder : ∀ node ∈ order, node < nodes)
    (origin : Nat) : Model.nearestHolder ((List.range nodes).map d.holdingNext) order origin =
      .ok (d.nearest order origin) := by
  have hasked : ∀ node ∈ order, (do
      return (← lookUp ((List.range nodes).map d.holdingNext) node).contains origin :
        Checked Bool) =
        .ok ((d.holdingNext node).contains origin) := by
    intro node hnode
    rw [lookUp_holdingNext nodes (horder node hnode)]
    rfl
  rw [Model.nearestHolder, findM?_eq_ok hasked]
  rfl

/-- Only nodes of the middle have results that can be missing. -/
theorem lt_of_missing (hm : m.WellFormed) {endpoint origin : Nat}
    (hmissing : origin ∈ (m.chain.resultSet \ d.holdingNext endpoint).toList) :
    origin < m.chain.nodes := by
  rw [NodeSet.mem_toList, NodeSet.contains_sdiff, Bool.and_eq_true,
    Chain.contains_resultSet hm.le_capacity] at hmissing
  exact Chain.lt_of_isInner hmissing.1

/-- No result is farther away than the chain is long. -/
theorem foldl_hops_le_nodes (hm : m.WellFormed) (d : Draft) (endpoint : Nat) (hops : Nat → Nat)
    (hhops : ∀ origin < m.chain.nodes, hops origin ≤ m.chain.nodes) :
    ((m.chain.resultSet \ d.holdingNext endpoint).toList.map hops).foldl max 0 ≤ m.chain.nodes := by
  rw [foldl_max_le_iff, List.forall_mem_map]
  exact ⟨Nat.zero_le _, fun origin hmissing => hhops origin (lt_of_missing hm hmissing)⟩

/-- The sum of two numbers of hops, one for each endpoint. -/
def hopsMissing (m : Model) (d : Draft) : Nat :=
  ((m.chain.resultSet \ d.holdingNext 0).toList.map (d.hopsFromFirst m.nodes)).foldl max 0 +
    ((m.chain.resultSet \ d.holdingNext m.chain.farEnd).toList.map
      (d.hopsFromLast m.nodes)).foldl max 0

/-- Neither is larger than the length of the chain. -/
theorem hopsMissing_le (hm : m.WellFormed) (d : Draft) : d.hopsMissing m ≤ 2 * m.chain.nodes := by
  have hup : ∀ node ∈ List.range m.nodes, node < m.nodes := fun node => List.mem_range.1
  have hfirst := foldl_hops_le_nodes hm d 0 (d.hopsFromFirst m.nodes)
    fun origin hlt => Nat.le_of_lt (nearest_lt hup hlt)
  have hlast := foldl_hops_le_nodes hm d m.chain.farEnd (d.hopsFromLast m.nodes)
    fun origin _ => Nat.le_trans (Nat.sub_le _ _) (Nat.sub_le _ _)
  unfold hopsMissing
  omega

/-- The measure of a well-formed model meets no fault. -/
theorem Fits.stillNeeded_eq_ok (h : d.Fits m.chain.nodes m.horizon) (hm : m.WellFormed) :
    m.stillNeeded d = .ok (d.hopsMissing m) := by
  have hup : ∀ node ∈ List.range m.nodes, node < m.nodes := fun node => List.mem_range.1
  have hdown : ∀ node ∈ (List.range m.nodes).reverse, node < m.nodes := fun node hnode =>
    hup node (List.mem_reverse.1 hnode)
  have hnext : (List.range m.nodes).mapM d.holdingNextChecked =
      .ok ((List.range m.nodes).map d.holdingNext) :=
    mapM_eq_ok fun node hnode => holdingNextChecked_eq
      (h.size_held.symm ▸ hup node hnode) (h.size_inbox.symm ▸ hup node hnode)
  let next := (List.range m.nodes).map d.holdingNext
  let missing := fun endpoint => (m.chain.resultSet \ d.holdingNext endpoint).toList
  have htoFirst : (missing 0).mapM (Model.nearestHolder next (List.range m.nodes)) =
      .ok ((missing 0).map (d.hopsFromFirst m.nodes)) :=
    mapM_eq_ok fun origin _ => nearestHolder_eq hup origin
  have htoLast : (missing m.chain.farEnd).mapM (fun origin => do
      without m.chain.farEnd (← Model.nearestHolder next (List.range m.nodes).reverse origin)) =
      .ok ((missing m.chain.farEnd).map (d.hopsFromLast m.nodes)) := by
    apply mapM_eq_ok
    intro origin hmissing
    rw [nearestHolder_eq hdown, ok_bind]
    exact without_of_le (Nat.le_sub_one_of_lt (nearest_lt hdown (lt_of_missing hm hmissing)))
  unfold Model.stillNeeded
  rw [Chain.resultSetChecked_eq hm.two_le hm.le_capacity, Chain.farEndChecked_eq hm.two_le]
  simp only [ok_bind]
  rw [hnext, ok_bind, lookUp_holdingNext m.nodes hm.first_lt, ok_bind, htoFirst, ok_bind,
    lookUp_holdingNext m.nodes hm.farEnd_lt, ok_bind, htoLast, ok_bind]
  have hcap : m.chain.nodes ≤ 64 := hm.le_capacity
  refine fitting_of_lt (Nat.lt_of_le_of_lt (hopsMissing_le hm d) ?_)
  unfold wordLimit
  omega

/-- It is the sum of one number for each endpoint. -/
theorem Consistent.stillNeeded_eq (h : d.Consistent m) (hm : m.WellFormed) :
    ∃ first last, m.stillNeeded d = .ok (first + last) ∧
      (∀ most, first ≤ most ↔ d.Within m 0 most) ∧
      ∀ most, last ≤ most ↔ d.Within m m.chain.farEnd most := by
  have hfirst := (approaches_first m d).foldl_hops_le_iff h hm
  have hlast := (approaches_last m d).foldl_hops_le_iff h hm
  exact ⟨_, _, h.fits.stillNeeded_eq_ok hm, hfirst, hlast⟩

/-- Nothing is needed exactly if both endpoints have all results or will have them
next. -/
theorem Consistent.stillNeeded_eq_zero_iff (h : d.Consistent m) (hm : m.WellFormed) {needed : Nat}
    (hneeded : m.stillNeeded d = .ok needed) : needed = 0 ↔
      ∀ result, m.chain.isInner result = true → (d.holdingNext 0).contains result = true ∧
        (d.holdingNext m.chain.farEnd).contains result = true := by
  obtain ⟨first, last, hok, hfirst, hlast⟩ := h.stillNeeded_eq hm
  rw [hneeded] at hok
  cases hok
  rw [Nat.add_eq_zero_iff, ← Nat.le_zero, hfirst, ← Nat.le_zero, hlast,
    within_zero_iff m.chain.isInner_zero, within_zero_iff m.chain.isInner_farEnd]
  constructor
  · exact fun hboth result hinner => ⟨hboth.1 result hinner, hboth.2 result hinner⟩
  · exact fun hall => ⟨fun result hinner => (hall result hinner).1,
      fun result hinner => (hall result hinner).2⟩

/-! ## What brings the numbers down -/

/-- A message brings the number of an endpoint down by as many hops as it gets
nearer to that endpoint. -/
theorem Consistent.within_of_sent (h : d.Consistent m) {sender receiver endpoint most nearer : Nat}
    (hbeside : m.chain.sideBySide sender receiver = true)
    (hstep : Chain.hops sender endpoint ≤ Chain.hops receiver endpoint + nearer)
    (hwithin : (d.sent sender receiver).Within m endpoint most) :
    d.Within m endpoint (most + nearer) := by
  have hnext := h.holdingNext_sent hbeside
  intro result hinner hmissing
  by_cases htold : ((d.sent sender receiver).holdingNext endpoint).contains result = true
  · -- the endpoint was told just now, by the node beside it
    rcases (hnext endpoint result).1 htold with hold | ⟨hto, hheld⟩
    · exact absurd hold hmissing
    · subst hto
      refine .inl ⟨sender, held_next hheld, ?_⟩
      unfold Chain.hops at hstep ⊢
      omega
  · rcases hwithin result hinner htold with ⟨holder, hholder, hle⟩ | ⟨hnone, hle⟩
    · rcases (hnext holder result).1 hholder with hold | ⟨hto, hheld⟩
      · exact .inl ⟨holder, hold, by omega⟩
      · subst hto
        exact .inl ⟨sender, held_next hheld, by omega⟩
    · refine .inr ⟨fun holder hold => hnone holder ((hnext holder result).2 (.inl hold)), by omega⟩

/-- Time leaves the number of an endpoint alone: what arrives was on its way. -/
theorem Consistent.within_of_delivered (h : d.Consistent m) {endpoint most : Nat}
    (hwithin : d.delivered.Within m endpoint most) : d.Within m endpoint most := by
  have hnext : ∀ node result, (d.delivered.holdingNext node).contains result = true ↔
      (d.holdingNext node).contains result = true := by
    intro node result
    rw [(quiet_delivered d).contains_holdingNext, h.holding_delivered_eq]
  unfold Within at hwithin
  simp only [hnext] at hwithin
  exact hwithin

/-- Executions leave it alone too: a node that executes is the one from which its
result had to come anyway. -/
theorem Opens.within (hopens : Opens m d (d.Ready m) e) (h : d.Consistent m)
    {endpoint most : Nat} (hend : m.chain.isInner endpoint = false)
    (hwithin : e.Within m endpoint most) : d.Within m endpoint most := by
  have hnext : ∀ node result, (e.holdingNext node).contains result = true ↔
      (d.holdingNext node).contains result = true ∨ (node = result ∧ d.Ready m node) := by
    intro node result
    rw [contains_holdingNext, contains_holdingNext, hopens.contains_holding, hopens.arriving_eq,
      or_right_comm]
  intro result hinner hmissing
  have hstill : ¬ (e.holdingNext endpoint).contains result = true := by
    intro hgot
    rcases (hnext endpoint result).1 hgot with hold | ⟨rfl, _⟩
    · exact hmissing hold
    · rw [hinner] at hend
      cases hend
  rcases hwithin result hinner hstill with ⟨holder, hholder, hle⟩ | ⟨hnone, hle⟩
  · rcases (hnext holder result).1 hholder with hold | ⟨rfl, hready⟩
    · exact .inl ⟨holder, hold, hle⟩
    · refine .inr ⟨fun other hother => ?_, hle⟩
      obtain ⟨time, hexec⟩ := h.executed_of_holdingNext hother
      rw [hready.fresh] at hexec
      cases hexec
  · exact .inr ⟨fun holder hold => hnone holder ((hnext holder result).2 (.inl hold)), hle⟩

/-! ## A bound on every completion -/

/-- The messages sent and those still needed are at least so many together. -/
def AtLeast (m : Model) (d : Draft) (most : Nat) : Prop :=
  ∃ needed, m.stillNeeded d = .ok needed ∧ most ≤ d.messages.size + needed

namespace AtLeast

variable {most : Nat}

/-- It stays so if at most as many hops are saved as messages are sent. -/
theorem of_within (hleast : d.AtLeast m most) (h : d.Consistent m) (he : e.Consistent m)
    (hm : m.WellFormed) (towardFirst towardLast : Nat)
    (hfirst : ∀ hops, e.Within m 0 hops → d.Within m 0 (hops + towardFirst))
    (hlast : ∀ hops, e.Within m m.chain.farEnd hops →
      d.Within m m.chain.farEnd (hops + towardLast))
    (hsize : d.messages.size + (towardFirst + towardLast) = e.messages.size) :
    e.AtLeast m most := by
  obtain ⟨needed, hneeded, hle⟩ := hleast
  obtain ⟨first, last, hbefore, hleft, hright⟩ := h.stillNeeded_eq hm
  obtain ⟨first', last', hafter, hleft', hright'⟩ := he.stillNeeded_eq hm
  rw [hneeded] at hbefore
  cases hbefore
  have hone : first ≤ first' + towardFirst :=
    (hleft _).2 (hfirst first' ((hleft' first').1 (Nat.le_refl _)))
  have hother : last ≤ last' + towardLast :=
    (hright _).2 (hlast last' ((hright' last').1 (Nat.le_refl _)))
  exact ⟨_, hafter, by omega⟩

/-- One message makes up for one message that is still needed. -/
theorem sent (hleast : d.AtLeast m most) (h : d.Consistent m) (hm : m.WellFormed)
    {sender receiver : Nat} (hbeside : m.chain.sideBySide sender receiver = true)
    (hsome : ∃ result, (d.holding sender).contains result = true) :
    (d.sent sender receiver).AtLeast m most := by
  have hsent := h.sent hbeside hsome
  have hsize : d.messages.size + 1 = (d.sent sender receiver).messages.size :=
    (Array.size_push _).symm
  have hstep : ∀ {endpoint nearer : Nat},
      Chain.hops sender endpoint ≤ Chain.hops receiver endpoint + nearer →
      ∀ hops, (d.sent sender receiver).Within m endpoint hops →
        d.Within m endpoint (hops + nearer) :=
    fun hnear _ => h.within_of_sent hbeside hnear
  simp only [Chain.hops] at hstep
  have hlast : m.chain.farEnd = m.chain.nodes - 1 := rfl
  obtain ⟨hsender, hreceiver, hnext | hnext⟩ := Chain.sideBySide_iff.1 hbeside
  · exact hleast.of_within h hsent hm 0 1 (hstep (by omega)) (hstep (by omega)) hsize
  · exact hleast.of_within h hsent hm 1 0 (hstep (by omega)) (hstep (by omega)) hsize

theorem delivered (hleast : d.AtLeast m most) (h : d.Consistent m) (hm : m.WellFormed)
    (hlt : d.time < m.horizon) : d.delivered.AtLeast m most :=
  hleast.of_within h (h.delivered hlt) hm 0 0 (fun _ hwithin => h.within_of_delivered hwithin)
    (fun _ hwithin => h.within_of_delivered hwithin) rfl

theorem opens (hleast : d.AtLeast m most) (h : d.Consistent m) (hm : m.WellFormed)
    (hopens : Opens m d (d.Ready m) e) : e.AtLeast m most :=
  hleast.of_within h hopens.consistent hm 0 0
    (fun _ hwithin => hopens.within h m.chain.isInner_zero hwithin)
    (fun _ hwithin => hopens.within h m.chain.isInner_farEnd hwithin)
    (congrArg Array.size hopens.messages_eq).symm

/-- A draft that needs nothing has the messages itself. -/
theorem le_size (hleast : d.AtLeast m most) (h : d.Consistent m) (hm : m.WellFormed)
    (hends : d.EndsHold m) : most ≤ d.messages.size := by
  obtain ⟨needed, hneeded, hle⟩ := hleast
  have hzero : needed = 0 := (h.stillNeeded_eq_zero_iff hm hneeded).2 fun result hinner =>
    ⟨held_next (hends result hinner).1, held_next (hends result hinner).2⟩
  omega

end AtLeast

end Draft

end ChainPropagation
