/-!
# Stable sorting

Schedules and links are put in order by inserting their entries one after
another, last one first, each in front of the first entry that it may precede.
Entries that may precede each other keep their order. A list that is already
in order is walked through once.

## Main results

* `sorted_perm` — sorting rearranges.
* `pairwise_sorted` — under a total and transitive comparison the result is in
  order.
* `sorted_congr` — entries in the midst of a list may be rearranged before, if
  none of them may precede another one and the other way round.
-/

namespace ChainPropagation

variable {α : Type}

/-- Puts `a` in front of the first entry that it may precede. -/
def insertInOrder (before : α → α → Bool) (a : α) : List α → List α
  | [] => [a]
  | b :: rest => if before a b then a :: b :: rest else b :: insertInOrder before a rest

/-- The entries of a list in order. -/
def sorted (before : α → α → Bool) (entries : List α) : List α :=
  entries.foldr (insertInOrder before) []

theorem insertInOrder_perm (before : α → α → Bool) (a : α) (entries : List α) :
    (insertInOrder before a entries).Perm (a :: entries) := by
  induction entries with
  | nil => exact .refl _
  | cons b rest ih =>
    simp only [insertInOrder]
    split
    · exact .refl _
    · exact (ih.cons b).trans (.swap a b rest)

theorem sorted_perm (before : α → α → Bool) (entries : List α) :
    (sorted before entries).Perm entries := by
  induction entries with
  | nil => exact .refl _
  | cons a rest ih => exact (insertInOrder_perm before a _).trans (ih.cons a)

@[simp] theorem length_sorted (before : α → α → Bool) (entries : List α) :
    (sorted before entries).length = entries.length :=
  (sorted_perm before entries).length_eq

@[simp] theorem mem_sorted {before : α → α → Bool} {entries : List α} {a : α} :
    a ∈ sorted before entries ↔ a ∈ entries :=
  (sorted_perm before entries).mem_iff

theorem pairwise_insertInOrder {before : α → α → Bool}
    (total : ∀ a b, before a b = true ∨ before b a = true)
    (trans : ∀ a b c, before a b = true → before b c = true → before a c = true)
    (a : α) {entries : List α} (h : entries.Pairwise (before · · = true)) :
    (insertInOrder before a entries).Pairwise (before · · = true) := by
  induction entries with
  | nil => simp [insertInOrder]
  | cons b rest ih =>
    obtain ⟨hb, hrest⟩ := List.pairwise_cons.1 h
    simp only [insertInOrder]
    split
    · rename_i hab
      refine List.pairwise_cons.2 ⟨fun c hc => ?_, h⟩
      rcases List.mem_cons.1 hc with rfl | hc
      · exact hab
      · exact trans a b c hab (hb c hc)
    · rename_i hab
      refine List.pairwise_cons.2 ⟨fun c hc => ?_, ih hrest⟩
      rcases List.mem_cons.1 ((insertInOrder_perm before a rest).mem_iff.1 hc) with rfl | hc
      · exact (total b c).resolve_right hab
      · exact hb c hc

/-- Two entries of which one comes strictly before the other are inserted in either
order. -/
theorem insertInOrder_comm {before : α → α → Bool}
    (trans : ∀ a b c, before a b = true → before b c = true → before a c = true)
    {a b : α} (hab : before a b = true) (hba : before b a = false) (entries : List α) :
    insertInOrder before a (insertInOrder before b entries) =
      insertInOrder before b (insertInOrder before a entries) := by
  induction entries with
  | nil => simp [insertInOrder, hab, hba]
  | cons c rest ih =>
    cases hbc : before b c with
    | true => simp [insertInOrder, hab, hba, hbc, trans a b c hab hbc]
    | false =>
      cases hac : before a c with
      | true => simp [insertInOrder, hba, hbc, hac]
      | false => simp [insertInOrder, hbc, hac, ih]

/-- The order of entries that the comparison tells apart is of no account. -/
theorem sorted_congr {before : α → α → Bool}
    (total : ∀ a b, before a b = true ∨ before b a = true)
    (trans : ∀ a b c, before a b = true → before b c = true → before a c = true)
    {middle middle' : List α} (hperm : middle.Perm middle')
    (hanti : ∀ a ∈ middle, ∀ b ∈ middle, before a b = true → before b a = true → a = b)
    (front back : List α) :
    sorted before (front ++ middle ++ back) = sorted before (front ++ middle' ++ back) := by
  have hcomm : ∀ a ∈ middle, ∀ b ∈ middle, ∀ entries,
      insertInOrder before b (insertInOrder before a entries) =
        insertInOrder before a (insertInOrder before b entries) := by
    intro a ha b hb entries
    cases hab : before a b with
    | true =>
      cases hba : before b a with
      | true => rw [hanti a ha b hb hab hba]
      | false => exact (insertInOrder_comm trans hab hba entries).symm
    | false =>
      have hba : before b a = true := (total a b).resolve_left (by simp [hab])
      exact insertInOrder_comm trans hba hab entries
  simp only [sorted, List.foldr_append]
  rw [hperm.foldr_eq' hcomm]

theorem pairwise_sorted {before : α → α → Bool}
    (total : ∀ a b, before a b = true ∨ before b a = true)
    (trans : ∀ a b c, before a b = true → before b c = true → before a c = true)
    (entries : List α) : (sorted before entries).Pairwise (before · · = true) := by
  induction entries with
  | nil => exact .nil
  | cons a rest ih => exact pairwise_insertInOrder total trans a ih

end ChainPropagation
