import Mathlib.Data.Finset.Prod
import ChainPropagation.Proofs.Walk

/-!
# What messages gain

A message is sent only if it is of use.  Either it takes a result to a node that did
not have it, nor was about to have it, or it is the first announcement of a node of
rank 0.  For the first there are no more occasions than nodes times results, and for
the second no more than nodes between the endpoints; so there is a bound on the number
of messages that knows nothing of a horizon (`Gainful.size_le_most`).

Where something is sent in each step, there is no more time than messages, and the
bound holds for the time as well (`Opens.gainful_delivered`).
-/

namespace ChainPropagation

/-- No draft that sends only what is of use has more messages. -/
def Chain.mostMessages (c : Chain) : Nat := (c.nodes + 1) * (c.nodes - 2)

theorem Chain.mostMessages_le (c : Chain) : c.mostMessages ≤ c.nodes * c.nodes := by
  have hsplit : c.mostMessages = c.nodes * (c.nodes - 2) + (c.nodes - 2) := Nat.succ_mul _ _
  by_cases hfew : c.nodes < 2
  · have hnone : c.nodes - 2 = 0 := by omega
    rw [hsplit, hnone]
    exact Nat.zero_le _
  · calc c.mostMessages = c.nodes * (c.nodes - 2) + (c.nodes - 2) := hsplit
      _ ≤ c.nodes * (c.nodes - 2) + c.nodes * 2 := by omega
      _ = c.nodes * (c.nodes - 2 + 2) := (Nat.mul_add _ _ _).symm
      _ = c.nodes * c.nodes := by rw [Nat.sub_add_cancel (Nat.not_lt.1 hfew)]

namespace Draft

variable {m : Model} {d e f : Draft} {links : List (Nat × Nat)} {sender receiver : Nat}

/-! ## Occasions -/

instance (m : Model) (d : Draft) (node : Nat) : Decidable (d.Announced m node) :=
  inferInstanceAs (Decidable (∃ a ∈ d.messages.toList, a.sender = node ∧ 0 < m.rank a.receiver))

/-- Who holds what or is about to, of the results there are. -/
def knownPlaces (m : Model) (d : Draft) : Finset (Nat × Nat) :=
  (Finset.range m.nodes ×ˢ m.chain.inner.toFinset).filter fun place =>
    (d.holdingNext place.1).contains place.2 = true

/-- The nodes between the endpoints that have sent to a node of a rank higher than 0. -/
def announcers (m : Model) (d : Draft) : Finset Nat :=
  m.chain.inner.toFinset.filter (d.Announced m)

theorem mem_knownPlaces {node result : Nat} : (node, result) ∈ d.knownPlaces m ↔
    (node < m.nodes ∧ m.chain.isInner result = true) ∧
      (d.holdingNext node).contains result = true := by
  rw [knownPlaces, Finset.mem_filter, Finset.mem_product, Finset.mem_range, List.mem_toFinset,
    Chain.mem_inner]

theorem mem_announcers {node : Nat} :
    node ∈ d.announcers m ↔ m.chain.isInner node = true ∧ d.Announced m node := by
  rw [announcers, Finset.mem_filter, List.mem_toFinset, Chain.mem_inner]

theorem card_inner (c : Chain) : c.inner.toFinset.card = c.nodes - 2 := by
  rw [List.toFinset_card_of_nodup c.nodup_inner, Chain.inner, List.length_range']

theorem card_knownPlaces_le (m : Model) (d : Draft) :
    (d.knownPlaces m).card ≤ m.nodes * (m.nodes - 2) := by
  have hall := Finset.card_filter_le (Finset.range m.nodes ×ˢ m.chain.inner.toFinset) fun place =>
    (d.holdingNext place.1).contains place.2 = true
  rw [Finset.card_product, Finset.card_range, card_inner] at hall
  exact hall

theorem card_announcers_le (m : Model) (d : Draft) : (d.announcers m).card ≤ m.nodes - 2 := by
  have hall := Finset.card_filter_le m.chain.inner.toFinset (d.Announced m)
  rw [card_inner] at hall
  exact hall

theorem knownPlaces_subset (h : ∀ node result, (d.holdingNext node).contains result = true →
    (e.holdingNext node).contains result = true) : d.knownPlaces m ⊆ e.knownPlaces m := by
  rintro ⟨node, result⟩ hplace
  rw [mem_knownPlaces] at hplace ⊢
  exact ⟨hplace.1, h node result hplace.2⟩

theorem announcers_subset (h : ∀ a ∈ d.messages.toList, a ∈ e.messages.toList) :
    d.announcers m ⊆ e.announcers m := by
  intro node hnode
  rw [mem_announcers] at hnode ⊢
  obtain ⟨hinner, a, ha, hannounces⟩ := hnode
  exact ⟨hinner, a, h a ha, hannounces⟩

theorem Consistent.knownPlaces_subset_sent (h : d.Consistent m)
    (hbeside : m.chain.sideBySide sender receiver = true) :
    d.knownPlaces m ⊆ (d.sent sender receiver).knownPlaces m :=
  knownPlaces_subset fun node result hknown =>
    (h.holdingNext_sent hbeside node result).2 (.inl hknown)

theorem announcers_subset_sent : d.announcers m ⊆ (d.sent sender receiver).announcers m :=
  announcers_subset fun _ ha => mem_messages_sent.2 (.inl ha)

/-- A message that tells something new fills a place. -/
theorem Consistent.card_knownPlaces_lt (h : d.Consistent m)
    (hbeside : m.chain.sideBySide sender receiver = true) {result : Nat}
    (hheld : (d.holding sender).contains result = true)
    (hnew : ¬ (d.holdingNext receiver).contains result = true) :
    (d.knownPlaces m).card < ((d.sent sender receiver).knownPlaces m).card := by
  obtain ⟨time, hexec⟩ := h.executed_of_contains hheld
  have hinner : m.chain.isInner result = true := (h.executes result time hexec).1
  have hreceiver : receiver < m.nodes := (Chain.sideBySide_iff.1 hbeside).2.1
  apply Finset.card_lt_card
  rw [Finset.ssubset_iff_of_subset (h.knownPlaces_subset_sent hbeside)]
  refine ⟨(receiver, result), ?_, ?_⟩
  · have htold := (h.holdingNext_sent hbeside receiver result).2 (.inr ⟨rfl, hheld⟩)
    exact mem_knownPlaces.2 ⟨⟨hreceiver, hinner⟩, htold⟩
  · exact fun hplace => hnew (mem_knownPlaces.1 hplace).2

/-- A message that announces its sender adds to those that have done so. -/
theorem card_announcers_lt (hm : m.WellFormed)
    (hbeside : m.chain.sideBySide sender receiver = true) (howes : d.Owes m sender receiver) :
    (d.announcers m).card < ((d.sent sender receiver).announcers m).card := by
  obtain ⟨_, hzero, hpos, hfirst⟩ := howes
  have hinner := hm.isInner_of_rank_zero (Chain.sideBySide_iff.1 hbeside).1 hzero hpos
  apply Finset.card_lt_card
  rw [Finset.ssubset_iff_of_subset announcers_subset_sent]
  refine ⟨sender, ?_, ?_⟩
  · exact mem_announcers.2 ⟨hinner, _, mem_messages_sent.2 (.inr rfl), rfl, hpos⟩
  · exact fun hannounced => hfirst (mem_announcers.1 hannounced).2

/-! ## Drafts that gain by every message -/

/-- There is no more time than messages, and there are no more messages than have been
of use. -/
structure Gainful (m : Model) (d : Draft) : Prop where
  time_le : d.time ≤ d.messages.size
  size_le : d.messages.size ≤ (d.knownPlaces m).card + (d.announcers m).card

theorem gainful_start (m : Model) : (start m).Gainful m :=
  { time_le := Nat.le_refl 0
    size_le := Nat.zero_le _ }

/-- There are no more messages than occasions. -/
theorem Gainful.size_le_most (h : d.Gainful m) : d.messages.size ≤ m.chain.mostMessages :=
  calc d.messages.size ≤ (d.knownPlaces m).card + (d.announcers m).card := h.size_le
    _ ≤ m.nodes * (m.nodes - 2) + (m.nodes - 2) :=
      Nat.add_le_add (card_knownPlaces_le m d) (card_announcers_le m d)
    _ = m.chain.mostMessages := (Nat.succ_mul _ _).symm

/-- What sends nothing and forgets nothing keeps a draft gainful while there is time
for it. -/
theorem Gainful.of_mono (h : d.Gainful m) (hsame : e.messages = d.messages)
    (htime : e.time ≤ d.messages.size)
    (hknown : ∀ node result, (d.holdingNext node).contains result = true →
      (e.holdingNext node).contains result = true) : e.Gainful m := by
  have hplaces := Finset.card_le_card (knownPlaces_subset (m := m) hknown)
  have hannounced : d.announcers m ⊆ e.announcers m := announcers_subset fun a ha => hsame ▸ ha
  rw [← hsame] at htime
  refine { time_le := htime, size_le := ?_ }
  calc e.messages.size = d.messages.size := by rw [hsame]
    _ ≤ (d.knownPlaces m).card + (d.announcers m).card := h.size_le
    _ ≤ (e.knownPlaces m).card + (e.announcers m).card :=
      Nat.add_le_add hplaces (Finset.card_le_card hannounced)

theorem Opens.gainful (hopens : Opens m d (d.Ready m) e) (h : d.Gainful m) : e.Gainful m := by
  refine h.of_mono hopens.messages_eq (hopens.time_eq ▸ h.time_le) ?_
  intro node result hknown
  rw [contains_holdingNext] at hknown ⊢
  rw [hopens.arriving_eq]
  exact hknown.imp_left hopens.mono

/-- A message that is worth sending gains something. -/
theorem Gainful.sent (h : d.Gainful m) (hm : m.WellFormed) (hd : d.Consistent m)
    (huseful : d.Useful m sender receiver) : (d.sent sender receiver).Gainful m := by
  have hone : (d.sent sender receiver).messages.size = d.messages.size + 1 := Array.size_push _
  have htime := h.time_le
  have hsize := h.size_le
  have hplaces := Finset.card_le_card (hd.knownPlaces_subset_sent huseful.beside)
  have hnodes : (d.announcers m).card ≤ ((d.sent sender receiver).announcers m).card :=
    Finset.card_le_card announcers_subset_sent
  refine { time_le := ?_, size_le := ?_ }
  · rw [time_sent]
    omega
  · rcases huseful.serves with ⟨result, hheld, hnew⟩ | howes
    · have hmore := hd.card_knownPlaces_lt huseful.beside hheld hnew
      omega
    · have hmore := card_announcers_lt hm huseful.beside howes
      omega

theorem Decided.gainful (hdecided : Decided m links d f) (hm : m.WellFormed) (h : d.Consistent m)
    (hgain : d.Gainful m) : f.Gainful m := by
  induction hdecided with
  | nil => exact hgain
  | skip _ ih => exact ih h hgain
  | send useful sends _ ih =>
      have huseful := (h.decides_isUseful hm _ _).of_eq_true useful
      rw [eq_sent_of_send sends] at ih
      exact ih (h.grows_sent huseful).consistent (hgain.sent hm h huseful)

/-- A whole step in which something is sent. -/
theorem Opens.gainful_delivered (hopens : Opens m d (d.Ready m) e) (hm : m.WellFormed)
    (h : d.Gainful m) (hdecided : Decided m links e f)
    (hmore : e.messages.size < f.messages.size) : f.delivered.Gainful m := by
  have hgrows := hdecided.grows hm hopens.consistent
  have hf := hdecided.gainful hm hopens.consistent (hopens.gainful h)
  have htime : f.time < f.messages.size :=
    calc f.time = d.time := hgrows.time_eq.trans hopens.time_eq
      _ ≤ d.messages.size := h.time_le
      _ = e.messages.size := by rw [hopens.messages_eq]
      _ < f.messages.size := hmore
  refine hf.of_mono rfl htime ?_
  intro node result hknown
  apply held_next
  rw [hgrows.consistent.holding_delivered_eq]
  exact hknown

end Draft

end ChainPropagation
