import Mathlib.Data.List.Sort
import Mathlib.Order.Bounds.Basic
import ChainPropagation.NodeSet

/-!
# Node sets, bit by bit

`NodeSet` lists the members of a set, counts them and finds the least and the greatest
in the ways that are easiest to reason with.  A machine has others, which take a few
instructions on the word: a mask tells whether one bit is set, the bits that are set are
counted at once, and so are the zeros below the lowest and above the highest of them.  To
list the members it takes the lowest bit away until none is left (`drain`).

All of these say the same of a set (`ReadOff`).  What is found by counting zeros is the
least or the greatest member, and there is only one of each; a list in strictly ascending
order is known by its members.

Main result: `node_sets_faithful`.
-/

namespace ChainPropagation

namespace NodeSet

variable {s others : NodeSet} {id : Nat}

/-- The members, as a set of numbers. -/
def members (s : NodeSet) : Set Nat := {id | s.contains id = true}

@[simp] theorem mem_members : id ∈ s.members ↔ s.contains id = true := Iff.rfl

theorem word_ne_zero (h : s.isEmpty = false) : s.word ≠ 0 := beq_eq_false_iff_ne.1 h

theorem one_le_word (h : s.isEmpty = false) : 1 ≤ s.word.toNat :=
  Nat.pos_of_ne_zero fun hzero => word_ne_zero h (BitVec.eq_of_toNat_eq hzero)

/-- A mask with a single bit tests for one member. -/
theorem contains_eq_masked (s : NodeSet) (id : Nat) :
    s.contains id = (decide (id < capacity) && s.word &&& (1 <<< id) != 0) := by
  by_cases hid : id < capacity
  · have hmask : BitVec.twoPow 64 id ≠ 0#64 := by
      intro hzero
      have hbit : (BitVec.twoPow 64 id).getLsbD id = true := by
        simpa [BitVec.getLsbD_twoPow, capacity] using hid
      rw [hzero, BitVec.getLsbD_zero] at hbit
      cases hbit
    show _ = (_ && s.word &&& BitVec.twoPow 64 id != 0)
    rw [BitVec.and_twoPow, contains]
    cases s.word.getLsbD id <;> simp [hid, hmask]
  · rw [contains_eq_false_of_le (Nat.le_of_not_lt hid), decide_eq_false hid, Bool.false_and]

/-! ## The lowest bit

Up to the lowest bit that is set a word and its negative are the same, above it they are
opposite.  One less than the word is the complement of its negative, so that it lacks that
bit and shares with the word all bits above it. -/

/-- The lowest of the bits that are set stays set in the negative, all others do not. -/
theorem getLsbD_neg_iff (h : s.contains id = true) :
    (-s.word).getLsbD id = true ↔ IsLeast s.members id := by
  have hbit : s.word.getLsbD id = true := h
  rw [BitVec.getLsbD_neg, hbit, decide_eq_true (BitVec.lt_of_getLsbD hbit), Bool.true_and,
    Bool.true_xor, Bool.not_eq_true', decide_eq_false_iff_not]
  constructor
  · intro hnone
    refine ⟨h, fun lower hlower => ?_⟩
    by_contra hless
    exact hnone ⟨lower, Nat.lt_of_not_le hless, hlower⟩
  · rintro hleast ⟨lower, hless, hlower⟩
    exact Nat.not_le_of_lt hless (hleast.2 hlower)

theorem contains_and_neg : contains ⟨s.word &&& -s.word⟩ id = true ↔ IsLeast s.members id := by
  show (s.word &&& -s.word).getLsbD id = true ↔ _
  rw [BitVec.getLsbD_and, Bool.and_eq_true]
  constructor
  · rintro ⟨hid, hneg⟩
    exact (getLsbD_neg_iff hid).1 hneg
  · intro hleast
    exact ⟨hleast.1, (getLsbD_neg_iff hleast.1).2 hleast⟩

theorem contains_and_sub_one : contains ⟨s.word &&& (s.word - 1)⟩ id = true ↔
    s.contains id = true ∧ ¬ IsLeast s.members id := by
  show (s.word &&& (s.word - 1#64)).getLsbD id = true ↔ s.contains id = true ∧ _
  rw [← BitVec.not_neg, BitVec.getLsbD_and, Bool.and_eq_true]
  refine and_congr_right fun hid => ?_
  rw [← getLsbD_neg_iff hid, BitVec.getLsbD_not, decide_eq_true (BitVec.lt_of_getLsbD hid),
    Bool.true_and, Bool.not_eq_true', Bool.not_eq_true]

theorem isLeast_ctz (h : s.isEmpty = false) : IsLeast s.members s.word.ctz.toNat := by
  refine ⟨BitVec.getLsbD_true_ctz_of_ne_zero (word_ne_zero h), fun id hid => ?_⟩
  by_contra hless
  have hunset : s.contains id = false := BitVec.getLsbD_false_of_lt_ctz (Nat.lt_of_not_le hless)
  rw [mem_members, hunset] at hid
  cases hid

/-! ## The highest bit -/

theorem isGreatest_log2 (h : s.isEmpty = false) : IsGreatest s.members s.word.toNat.log2 := by
  have hword : s.word.toNat ≠ 0 := Nat.ne_of_gt (one_le_word h)
  constructor
  · rw [mem_members, ← testBit_word]
    exact Nat.testBit_log2 hword
  · intro id hid
    rw [mem_members, ← testBit_word] at hid
    exact (Nat.le_log2 hword).2 (Nat.ge_two_pow_of_testBit hid)

theorem clz_le (h : s.isEmpty = false) : s.word.clz.toNat ≤ capacity - 1 := by
  have hless : s.word.clz < 64#64 := BitVec.clz_lt_iff_ne_zero.2 (word_ne_zero h)
  exact Nat.le_sub_one_of_lt (BitVec.lt_def.1 hless)

theorem isGreatest_clz (h : s.isEmpty = false) :
    IsGreatest s.members (capacity - 1 - s.word.clz.toNat) := by
  refine ⟨BitVec.getLsbD_true_clz_of_ne_zero (by decide) (word_ne_zero h), fun id hid => ?_⟩
  rw [mem_members, ← testBit_word] at hid
  have hpow : 2 ^ id < 2 ^ (capacity - s.word.clz.toNat) :=
    Nat.lt_of_le_of_lt (Nat.ge_two_pow_of_testBit hid) BitVec.toNat_lt_two_pow_sub_clz
  have hless := (Nat.pow_lt_pow_iff_right (by decide)).1 hpow
  omega

/-- The lowest bit is the highest one of what a word and its negative share. -/
theorem isLeast_log2 (h : s.isEmpty = false) :
    IsLeast s.members (s.word &&& -s.word).toNat.log2 := by
  have hshared : isEmpty ⟨s.word &&& -s.word⟩ = false :=
    isEmpty_eq_false_iff.2 ⟨_, contains_and_neg.2 (isLeast_ctz h)⟩
  exact contains_and_neg.1 (isGreatest_log2 hshared).1

/-! ## The members one after another -/

/-- The least member and the set of the others, as long as there is a member. -/
def takeLeast (s : NodeSet) : Option (Nat × NodeSet) :=
  if s.isEmpty then none else some (s.word.ctz.toNat, ⟨s.word &&& (s.word - 1)⟩)

theorem isEmpty_of_takeLeast (h : s.takeLeast = none) : s.isEmpty = true := by
  cases hempty : s.isEmpty with
  | true => rfl
  | false => simp [takeLeast, hempty] at h

theorem takeLeast_eq_some (h : s.takeLeast = some (id, others)) : s.isEmpty = false ∧
    id = s.word.ctz.toNat ∧ others = ⟨s.word &&& (s.word - 1)⟩ := by
  cases hempty : s.isEmpty with
  | true => simp [takeLeast, hempty] at h
  | false =>
      simp only [takeLeast, hempty, Bool.false_eq_true, if_false, Option.some.injEq,
        Prod.mk.injEq] at h
      exact ⟨rfl, h.1.symm, h.2.symm⟩

theorem isLeast_of_takeLeast (h : s.takeLeast = some (id, others)) : IsLeast s.members id := by
  obtain ⟨hempty, rfl, _⟩ := takeLeast_eq_some h
  exact isLeast_ctz hempty

/-- What is left are the members above the one that is taken. -/
theorem contains_of_takeLeast (h : s.takeLeast = some (id, others)) (other : Nat) :
    others.contains other = true ↔ s.contains other = true ∧ id < other := by
  have hleast := isLeast_of_takeLeast h
  obtain ⟨_, _, rfl⟩ := takeLeast_eq_some h
  rw [contains_and_sub_one]
  refine and_congr_right fun hother => ⟨fun hnot => ?_, fun hless hagain => ?_⟩
  · refine Nat.lt_of_le_of_ne (hleast.2 hother) ?_
    rintro rfl
    exact hnot hleast
  · exact Nat.ne_of_lt hless (hleast.unique hagain)

theorem word_lt_of_takeLeast (h : s.takeLeast = some (id, others)) :
    others.word.toNat < s.word.toNat := by
  obtain ⟨hempty, _, rfl⟩ := takeLeast_eq_some h
  have hpos := one_le_word hempty
  calc (s.word &&& (s.word - 1)).toNat
      ≤ (s.word - 1).toNat := by
        rw [BitVec.toNat_and]
        exact Nat.and_le_right
    _ = s.word.toNat - 1 := BitVec.toNat_sub_of_le hpos
    _ < s.word.toNat := by omega

/-- The members as they are taken, the least one first, until none is left. -/
def drain (s : NodeSet) : List Nat :=
  match _h : s.takeLeast with
  | none => []
  | some (id, others) => id :: others.drain
termination_by s.word.toNat
decreasing_by exact word_lt_of_takeLeast _h

theorem mem_drain : id ∈ s.drain ↔ s.contains id = true := by
  fun_induction drain s with
  | case1 s hnone =>
      have hunset := isEmpty_iff.1 (isEmpty_of_takeLeast hnone) id
      simp [hunset]
  | case2 s least others hsome ih =>
      have hleast := isLeast_of_takeLeast hsome
      -- the others are drained by induction, and they are the members above the least one
      rw [List.mem_cons, ih, contains_of_takeLeast hsome]
      constructor
      · rintro (rfl | ⟨hid, _⟩)
        · exact hleast.1
        · exact hid
      · intro hid
        rcases Nat.eq_or_lt_of_le (hleast.2 hid) with heq | hless
        · exact .inl heq.symm
        · exact .inr ⟨hid, hless⟩

theorem pairwise_drain (s : NodeSet) : s.drain.Pairwise (· < ·) := by
  fun_induction drain s with
  | case1 => exact .nil
  | case2 s least others hsome ih =>
      refine .cons (fun id hid => ?_) ih
      exact ((contains_of_takeLeast hsome id).1 (mem_drain.1 hid)).2

theorem toList_eq_drain (s : NodeSet) : s.toList = s.drain :=
  s.pairwise_toList.eq_of_mem_iff s.pairwise_drain fun _ => mem_toList.trans mem_drain.symm

/-! ## The first member and the last -/

theorem toList_eq_nil (h : s.isEmpty = true) : s.toList = [] := by
  rw [List.eq_nil_iff_forall_not_mem]
  intro id hid
  have hunset := isEmpty_iff.1 h id
  rw [mem_toList.1 hid] at hunset
  cases hunset

theorem head?_toList_eq (h : IsLeast s.members id) : s.toList.head? = some id := by
  have hmem : id ∈ s.toList := mem_toList.2 h.1
  have hsorted := s.pairwise_toList
  cases hlist : s.toList with
  | nil =>
      rw [hlist] at hmem
      cases hmem
  | cons first rest =>
      have hle : id ≤ first := h.2 (mem_toList.1 (by simp [hlist]))
      rw [hlist] at hmem hsorted
      rcases List.mem_cons.1 hmem with rfl | hrest
      · rfl
      · have hless := List.rel_of_pairwise_cons hsorted hrest
        omega

theorem getLast?_toList_eq (h : IsGreatest s.members id) : s.toList.getLast? = some id := by
  have hmem : id ∈ s.toList := mem_toList.2 h.1
  have hsorted := s.pairwise_toList
  rcases List.eq_nil_or_concat' s.toList with hlist | ⟨init, last, hlist⟩
  · rw [hlist] at hmem
    cases hmem
  · have hle : last ≤ id := h.2 (mem_toList.1 (by simp [hlist]))
    rw [hlist] at hmem hsorted
    rw [hlist, List.getLast?_concat]
    rcases List.mem_append.1 hmem with hinit | hlast
    · have hless := (List.pairwise_append.1 hsorted).2.2 id hinit last (by simp)
      omega
    · rw [List.mem_singleton.1 hlast]

/-- Whatever number is the least member as soon as there is one is the first entry. -/
theorem head?_toList_eq_ite (h : s.isEmpty = false → IsLeast s.members id) :
    s.toList.head? = if s.isEmpty then none else some id := by
  cases hempty : s.isEmpty with
  | true => rw [toList_eq_nil hempty, List.head?_nil, if_pos rfl]
  | false => rw [head?_toList_eq (h hempty), if_neg Bool.false_ne_true]

theorem getLast?_toList_eq_ite (h : s.isEmpty = false → IsGreatest s.members id) :
    s.toList.getLast? = if s.isEmpty then none else some id := by
  cases hempty : s.isEmpty with
  | true => rw [toList_eq_nil hempty, List.getLast?_nil, if_pos rfl]
  | false => rw [getLast?_toList_eq (h hempty), if_neg Bool.false_ne_true]

theorem min?_eq_head? (s : NodeSet) : s.min? = s.toList.head? := by
  rw [min?, head?_toList_eq_ite isLeast_log2]

theorem max?_eq_getLast? (s : NodeSet) : s.max? = s.toList.getLast? := by
  rw [max?, getLast?_toList_eq_ite isGreatest_log2]

/-! ## The number of members -/

theorem cpopNatRec_eq_countP (word : BitVec 64) (width : Nat) :
    word.cpopNatRec width 0 = (List.range width).countP word.getLsbD := by
  induction width with
  | zero => rfl
  | succ width ih =>
      rw [BitVec.cpopNatRec_succ, BitVec.cpopNatRec_add, ih, List.range_succ,
        List.countP_append, List.countP_singleton]
      cases word.getLsbD width <;> rfl

theorem size_eq_cpop (s : NodeSet) : s.size = s.word.cpop.toNat := by
  rw [size_eq_length_toList, toList, ← List.countP_eq_length_filter, BitVec.toNat_cpop,
    cpopNatRec_eq_countP]
  rfl

/-! ## Readings of a word -/

/-- What a set says of its members is what is read off its word. -/
structure ReadOff (s : NodeSet) : Prop where
  contains_eq : ∀ id, s.contains id = (decide (id < capacity) && s.word &&& (1 <<< id) != 0)
  toList_eq : s.toList = s.drain
  size_eq : s.size = s.word.cpop.toNat
  min?_eq : s.min? = if s.isEmpty then none else some s.word.ctz.toNat
  max?_eq : s.max? = if s.isEmpty then none else some (capacity - 1 - s.word.clz.toNat)
  /-- neither the subtraction of `drain` nor that for the greatest member leads below 0 -/
  subtracts : s.isEmpty = false → 1 ≤ s.word.toNat ∧ s.word.clz.toNat ≤ capacity - 1

theorem readOff (s : NodeSet) : s.ReadOff where
  contains_eq := s.contains_eq_masked
  toList_eq := s.toList_eq_drain
  size_eq := s.size_eq_cpop
  min?_eq := s.min?_eq_head?.trans (head?_toList_eq_ite isLeast_ctz)
  max?_eq := s.max?_eq_getLast?.trans (getLast?_toList_eq_ite isGreatest_clz)
  subtracts h := ⟨one_le_word h, clz_le h⟩

/-! ## Sets of given ids -/

theorem ofIds_eq_ok_iff {ids : List Nat} :
    ofIds ids = .ok s ↔ (∀ id ∈ ids, id < capacity) ∧ s = ofList ids := by
  constructor
  · intro h
    cases hfind : ids.find? (capacity ≤ ·) with
    | some large => simp [ofIds, hfind] at h
    | none =>
        have hfit : ∀ id ∈ ids, id < capacity := by simpa using hfind
        rw [ofIds_eq hfit] at h
        cases h
        exact ⟨hfit, rfl⟩
  · rintro ⟨hfit, rfl⟩
    exact ofIds_eq hfit

theorem add_eq_ok_iff {a : NodeSet} : a.add id = .ok s ↔ id < capacity ∧ s = a.insert id := by
  unfold add
  split
  · rename_i hid
    simp [hid, eq_comm]
  · rename_i hid
    simp [hid]

theorem contains_of_add {a : NodeSet} (h : a.add id = .ok s) (other : Nat) :
    s.contains other = (a.contains other || other == id) := by
  obtain ⟨hid, rfl⟩ := add_eq_ok_iff.1 h
  have hsame : (id = other ∧ other < capacity) ↔ other = id :=
    ⟨fun hboth => hboth.1.symm, fun heq => ⟨heq.symm, heq ▸ hid⟩⟩
  rw [contains_insert, beq_eq_decide, decide_eq_decide.2 hsame]

end NodeSet

/-- A list of ids is taken for a set exactly if all of them fit; none of them meets a fault
then, and the set lists each of them once, in strictly ascending order.  The members of
a union, an intersection, a difference and a set with a further id, which has to fit,
are the Boolean combinations, and a set is part of another one if its members are.  What
a set says of its members is what is read off its word; its size is the length of the
list, and its least and greatest member are the first and the last entry. -/
theorem node_sets_faithful :
    (∀ ids : List Nat, (∃ s, NodeSet.ofIds ids = .ok s) ↔ ∀ id ∈ ids, id < NodeSet.capacity) ∧
    (∀ (ids : List Nat) (s : NodeSet), NodeSet.ofIds ids = .ok s →
      NodeSet.collect ids = .ok s ∧ s.toList.Pairwise (· < ·) ∧
        ∀ id, id ∈ s.toList ↔ id ∈ ids) ∧
    (∀ (a b : NodeSet) (id : Nat),
      (a ∪ b).contains id = (a.contains id || b.contains id) ∧
      (a ∩ b).contains id = (a.contains id && b.contains id) ∧
      (a \ b).contains id = (a.contains id && !b.contains id)) ∧
    (∀ (a : NodeSet) (new : Nat), ((∃ s, a.add new = .ok s) ↔ new < NodeSet.capacity) ∧
      ∀ s, a.add new = .ok s → ∀ id, s.contains id = (a.contains id || id == new)) ∧
    (∀ a b : NodeSet, a.isSubset b = true ↔ ∀ id, a.contains id = true → b.contains id = true) ∧
    ∀ s : NodeSet, s.ReadOff ∧ (∀ id, id ∈ s.toList ↔ s.contains id = true) ∧
      s.size = s.toList.length ∧ s.min? = s.toList.head? ∧ s.max? = s.toList.getLast? := by
  refine ⟨fun ids => ?_, fun ids s hs => ?_, fun a b id => ?_,
    fun a new => ⟨?_, fun s => NodeSet.contains_of_add⟩, fun a b => NodeSet.isSubset_iff,
    fun s => ?_⟩
  · simp [NodeSet.ofIds_eq_ok_iff]
  · obtain ⟨hfit, rfl⟩ := NodeSet.ofIds_eq_ok_iff.1 hs
    exact ⟨NodeSet.collect_eq hfit, NodeSet.pairwise_toList _,
      fun _ => NodeSet.mem_toList_ofList hfit⟩
  · exact ⟨NodeSet.contains_union a b id, NodeSet.contains_inter a b id,
      NodeSet.contains_sdiff a b id⟩
  · simp [NodeSet.add_eq_ok_iff]
  · exact ⟨s.readOff, fun _ => NodeSet.mem_toList, s.size_eq_length_toList, s.min?_eq_head?,
      s.max?_eq_getLast?⟩

/-- Both ends of a word, and an id that is given twice. -/
theorem outermostIds_listed : ∃ s, NodeSet.ofIds [63, 5, 0, 5] = .ok s ∧
    NodeSet.collect [63, 5, 0, 5] = .ok s ∧ s.toList = [0, 5, 63] ∧
    s.toList.Pairwise (· < ·) ∧ (∀ id, id ∈ s.toList ↔ id ∈ [63, 5, 0, 5]) ∧
    ∃ t, s.add 62 = .ok t ∧ ∀ id, t.contains id = (s.contains id || id == 62) := by
  obtain ⟨_, hlists, _, hadd, _⟩ := node_sets_faithful
  have hs : NodeSet.ofIds [63, 5, 0, 5] = .ok (.ofList [63, 5, 0, 5]) := rfl
  obtain ⟨hcollect, hsorted, hmem⟩ := hlists _ _ hs
  exact ⟨_, hs, hcollect, by decide, hsorted, hmem, _, rfl, (hadd _ 62).2 _ rfl⟩

end ChainPropagation
