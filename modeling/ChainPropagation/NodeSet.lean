import ChainPropagation.Fault

/-!
# Sets of node ids

The results a node holds, and the payload of a message, are sets of node ids
below `NodeSet.capacity`. Such a set is one 64-bit word: bit `i` says whether
`i` is a member. Everything else is seen through the view `contains`; each
operation has one lemma that says what it does to that view.

Inserting an id of 64 or more leaves a set as it is; the checked forms `add`,
`collect` and `span` stop with a fault instead.

## Main results

* `ext` — two sets with the same members are equal.
* `contains_insert`, `contains_union`, `contains_inter`, `contains_sdiff` —
  the operations as Boolean combinations.
* `size_eq_length_toList` — the bits that are set are the members.
-/

namespace ChainPropagation

/-- A set of node ids below 64, one bit for each. -/
structure NodeSet where
  /-- bit `i` is set exactly if `i` is a member -/
  word : BitVec 64
  deriving DecidableEq

namespace NodeSet

/-- Ids of this size and above do not fit. -/
def capacity : Nat := 64

/-- Whether `i` is a member. Ids past the capacity never are. -/
def contains (s : NodeSet) (i : Nat) : Bool := s.word.getLsbD i

instance : EmptyCollection NodeSet := ⟨⟨0⟩⟩

instance : Inhabited NodeSet := ⟨∅⟩

instance : Union NodeSet := ⟨fun a b => ⟨a.word ||| b.word⟩⟩

instance : Inter NodeSet := ⟨fun a b => ⟨a.word &&& b.word⟩⟩

instance : SDiff NodeSet := ⟨fun a b => ⟨a.word &&& ~~~b.word⟩⟩

/-- The set with `i` as a further member; no change if `i` does not fit. -/
def insert (s : NodeSet) (i : Nat) : NodeSet := ⟨s.word ||| BitVec.twoPow 64 i⟩

/-- The set whose only member is `i`, or the empty set if `i` does not fit. -/
def singleton (i : Nat) : NodeSet := insert ∅ i

/-- The set of those members of a list that fit. -/
def ofList (ids : List Nat) : NodeSet := ids.foldl insert ∅

/-- Whether there is no member. -/
def isEmpty (s : NodeSet) : Bool := s.word == 0

/-- Whether every member of `a` is one of `b`. -/
def isSubset (a b : NodeSet) : Bool := (a \ b).isEmpty

/-! ## Members as a list and as numbers -/

/-- The members in ascending order. -/
def toList (s : NodeSet) : List Nat := (List.range capacity).filter s.contains

/-- The number of bits that are set in `n`. -/
def bitCount (n : Nat) : Nat :=
  if n = 0 then 0 else n % 2 + bitCount (n / 2)
termination_by n
decreasing_by omega

/-- The number of members. -/
def size (s : NodeSet) : Nat := bitCount s.word.toNat

/-- The least member: the place of the lowest bit that is set, which is all
that a word and its negative have in common. -/
def min? (s : NodeSet) : Option Nat :=
  if s.isEmpty then none else some (s.word &&& -s.word).toNat.log2

/-- The greatest member: the place of the highest bit that is set. -/
def max? (s : NodeSet) : Option Nat :=
  if s.isEmpty then none else some s.word.toNat.log2

/-- The order of the words behind two sets: the largest id in which the sets
differ decides. -/
def order (a b : NodeSet) : Ordering := compare a.word.toNat b.word.toNat

/-! ## Checked construction -/

/-- The set with `i` as a further member, which has to fit. -/
def add (s : NodeSet) (i : Nat) : Checked NodeSet :=
  if i < capacity then .ok (s.insert i) else .error (.idTooLarge i)

/-- The set of the members of a list, which all have to fit. -/
def collect (ids : List Nat) : Checked NodeSet := ids.foldlM add ∅

/-- The set of the ids from `low` to `high`, both included. -/
def span (low high : Nat) : Checked NodeSet :=
  if low ≤ high ∧ capacity ≤ high then .error (.idTooLarge (max low capacity))
  else .ok (ofList (List.range' low (high + 1 - low)))

/-- The set of the members of a list, or the first one that does not fit. -/
def ofIds (ids : List Nat) : Except Nat NodeSet :=
  match ids.find? (capacity ≤ ·) with
  | some id => .error id
  | none => .ok (ofList ids)

/-- What is said of an id that does not fit. -/
def tooLargeMessage (id : Nat) : String :=
  s!"node id {id} exceeds the {capacity}-node limit"

/-! ## Text -/

/-- The members between braces, without blanks: `{1,3}`. -/
def text (s : NodeSet) : String :=
  "\x7b" ++ ",".intercalate (s.toList.map toString) ++ "\x7d"

/-- The members between braces, a blank after each comma: `{1, 3}`. -/
def spacedText (s : NodeSet) : String :=
  "\x7b" ++ ", ".intercalate (s.toList.map toString) ++ "\x7d"

/-! ## The view -/

theorem contains_eq_false_of_le {s : NodeSet} {i : Nat} (h : capacity ≤ i) :
    s.contains i = false :=
  BitVec.getLsbD_of_ge s.word i h

theorem ext {a b : NodeSet} (h : ∀ i, a.contains i = b.contains i) : a = b := by
  cases a; cases b
  simp only [mk.injEq]
  exact BitVec.eq_of_getLsbD_eq fun i _ => h i

@[simp] theorem contains_empty (i : Nat) : (∅ : NodeSet).contains i = false :=
  BitVec.getLsbD_zero

@[simp] theorem contains_union (a b : NodeSet) (i : Nat) :
    (a ∪ b).contains i = (a.contains i || b.contains i) :=
  BitVec.getLsbD_or

@[simp] theorem contains_inter (a b : NodeSet) (i : Nat) :
    (a ∩ b).contains i = (a.contains i && b.contains i) :=
  BitVec.getLsbD_and

theorem contains_sdiff (a b : NodeSet) (i : Nat) :
    (a \ b).contains i = (a.contains i && !b.contains i) := by
  show (a.word &&& ~~~b.word).getLsbD i = _
  rw [BitVec.getLsbD_and, BitVec.getLsbD_not]
  by_cases h : i < 64
  · simp [h, contains]
  · simp [h, contains, BitVec.getLsbD_of_ge a.word i (by omega)]

@[simp] theorem contains_insert (s : NodeSet) (i j : Nat) :
    (s.insert i).contains j = (s.contains j || decide (i = j ∧ j < capacity)) := by
  show (s.word ||| BitVec.twoPow 64 i).getLsbD j = _
  rw [BitVec.getLsbD_or, BitVec.getLsbD_twoPow]
  by_cases h : i = j <;> simp [h, contains, capacity]

theorem lt_capacity_of_contains {s : NodeSet} {i : Nat} (h : s.contains i = true) :
    i < capacity := by
  by_cases hi : i < capacity
  · exact hi
  · rw [contains_eq_false_of_le (by omega)] at h
    cases h

@[simp] theorem contains_singleton (i j : Nat) :
    (singleton i).contains j = decide (i = j ∧ j < capacity) := by
  simp [singleton]

theorem contains_foldl_insert (ids : List Nat) (s : NodeSet) (i : Nat) :
    (ids.foldl insert s).contains i = true ↔
      s.contains i = true ∨ (i ∈ ids ∧ i < capacity) := by
  induction ids generalizing s with
  | nil => simp
  | cons id ids ih =>
      rw [List.foldl_cons, ih, contains_insert, Bool.or_eq_true, decide_eq_true_eq,
        List.mem_cons]
      constructor
      · rintro ((h | ⟨rfl, h⟩) | ⟨h, hi⟩)
        · exact .inl h
        · exact .inr ⟨.inl rfl, h⟩
        · exact .inr ⟨.inr h, hi⟩
      · rintro (h | ⟨rfl | h, hi⟩)
        · exact .inl (.inl h)
        · exact .inl (.inr ⟨rfl, hi⟩)
        · exact .inr ⟨h, hi⟩

theorem contains_ofList {ids : List Nat} {i : Nat} :
    (ofList ids).contains i = true ↔ i ∈ ids ∧ i < capacity := by
  rw [ofList, contains_foldl_insert, contains_empty]
  simp

theorem foldlM_add {ids : List Nat} (h : ∀ i ∈ ids, i < capacity) (s : NodeSet) :
    ids.foldlM add s = .ok (ids.foldl insert s) := by
  induction ids generalizing s with
  | nil => rfl
  | cons id ids ih =>
      rw [List.foldlM_cons, List.foldl_cons, add, if_pos (h id (by simp)), ok_bind,
        ih fun i hi => h i (by simp [hi])]

/-- Ids that all fit are collected. -/
theorem collect_eq {ids : List Nat} (h : ∀ i ∈ ids, i < capacity) :
    collect ids = .ok (ofList ids) :=
  foldlM_add h ∅

theorem isEmpty_iff {s : NodeSet} : s.isEmpty = true ↔ ∀ i, s.contains i = false := by
  constructor
  · intro h i
    have hword : s.word = 0 := eq_of_beq h
    simp [contains, hword]
  · intro h
    have hs : s = ∅ := ext fun i => by rw [h i, contains_empty]
    subst hs
    rfl

theorem isEmpty_eq_false_iff {s : NodeSet} :
    s.isEmpty = false ↔ ∃ i, s.contains i = true := by
  rw [← Bool.not_eq_true, isEmpty_iff]
  simp

theorem isSubset_iff {a b : NodeSet} :
    a.isSubset b = true ↔ ∀ i, a.contains i = true → b.contains i = true := by
  rw [isSubset, isEmpty_iff]
  refine forall_congr' fun i => ?_
  rw [contains_sdiff]
  cases a.contains i <;> cases b.contains i <;> decide

/-- Two sets are the same if they contain the same ids. -/
theorem eq_iff_contains {a b : NodeSet} :
    a = b ↔ ∀ i, a.contains i = true ↔ b.contains i = true := by
  constructor
  · intro heq i
    rw [heq]
  · intro hsame
    apply ext
    intro i
    exact Bool.eq_iff_iff.2 (hsame i)

theorem mem_toList {s : NodeSet} {i : Nat} : i ∈ s.toList ↔ s.contains i = true := by
  simp only [toList, List.mem_filter, List.mem_range, and_iff_right_iff_imp]
  exact lt_capacity_of_contains

theorem pairwise_toList (s : NodeSet) : s.toList.Pairwise (· < ·) :=
  List.pairwise_lt_range.filter _

theorem nodup_toList (s : NodeSet) : s.toList.Nodup := List.nodup_range.filter _

/-- A set is the set of its members. -/
theorem ofList_toList (s : NodeSet) : ofList s.toList = s :=
  eq_iff_contains.2 fun i => by
    rw [contains_ofList, mem_toList]
    exact and_iff_left_of_imp lt_capacity_of_contains

/-- The set of ids that all fit lists these. -/
theorem mem_toList_ofList {ids : List Nat} (h : ∀ id ∈ ids, id < capacity) {i : Nat} :
    i ∈ (ofList ids).toList ↔ i ∈ ids := by
  rw [mem_toList, contains_ofList]
  exact and_iff_left_of_imp (h i)

/-- Ids that all fit are a set. -/
theorem ofIds_eq {ids : List Nat} (h : ∀ id ∈ ids, id < capacity) :
    ofIds ids = .ok (ofList ids) := by
  have hnone : ids.find? (capacity ≤ ·) = none := by
    rw [List.find?_eq_none]
    intro id hid
    simpa using h id hid
  rw [ofIds, hnone]

/-! ## The number of members -/

/-- The lowest bit counts by itself, and all others are those of the half. -/
theorem bitCount_eq (n : Nat) : bitCount n = n % 2 + bitCount (n / 2) := by
  rw [bitCount]
  split
  · rename_i hzero
    subst hzero
    rw [bitCount, if_pos rfl]
  · rfl

theorem bitCount_eq_countP {width n : Nat} (h : n < 1 <<< width) :
    bitCount n = (List.range width).countP n.testBit := by
  induction width generalizing n with
  | zero =>
      have hzero : n = 0 := Nat.lt_one_iff.1 h
      subst hzero
      rw [bitCount, if_pos rfl]
      rfl
  | succ width ih =>
      rw [Nat.shiftLeft_succ] at h
      have hhalf : n / 2 < 1 <<< width := by omega
      have hlowest : (if n.testBit 0 = true then 1 else 0) = n % 2 := by
        simp only [Nat.testBit_zero, decide_eq_true_eq]
        split <;> omega
      have hothers : n.testBit ∘ Nat.succ = (n / 2).testBit := by
        funext i
        exact Nat.testBit_add_one n i
      rw [bitCount_eq, ih hhalf, List.range_succ_eq_map, List.countP_cons, List.countP_map, hothers,
        hlowest, Nat.add_comm]

theorem testBit_word (s : NodeSet) (i : Nat) : s.word.toNat.testBit i = s.contains i :=
  BitVec.testBit_toNat s.word

/-- The size of a set is the number of its members. -/
theorem size_eq_length_toList (s : NodeSet) : s.size = s.toList.length := by
  have hmember : s.contains = s.word.toNat.testBit := funext fun i => (s.testBit_word i).symm
  have hword : s.word.toNat < 1 <<< capacity := s.word.isLt
  rw [size, bitCount_eq_countP hword, toList, ← List.countP_eq_length_filter, hmember]

end NodeSet

end ChainPropagation
