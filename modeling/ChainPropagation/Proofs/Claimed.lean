import ChainPropagation.Interchange.Model
import ChainPropagation.Proofs.Possession

/-!
# Which claimed tables can be judged

A table that is claimed for a schedule comes from outside, and its number of nodes,
its horizon and its list of cells need not go together.  `Model.judge` looks at the
first two beforehand.  A table of another size is turned down at once, with a sentence
that names the number of its rows; a table of the right size is given to the rules,
which read its cells.

Neither way is safe for every table.  The cells are not counted beforehand, and some
rule reads each of them, so that a table of the right size is judged exactly if it has
them all.  And the number of rows of the longest table there is does not fit a machine
word.  Apart from these two kinds every table is either passed or turned down
(`judge_answers_iff`).
-/

namespace ChainPropagation

namespace Model

variable {m : Model} {s : Schedule} {p : Possession}

/-- Whether a table announces as many nodes and the same horizon as the model. -/
def SameSize (m : Model) (p : Possession) : Prop := p.nodes = m.nodes ∧ p.horizon = m.horizon

theorem SameSize.covers_iff (h : m.SameSize p) : m.Covers p ↔ m.tableCovers p = true := by
  refine ⟨Covers.tableCovers, fun hcells => ?_⟩
  exact { nodes_eq := h.1, horizon_eq := h.2, size_le := of_decide_eq_true hcells }

/-! ## Tables of the right size -/

theorem judge_of_sameSize (h : m.SameSize p) : m.judge s p = m.breaches s p := if_pos h

/-- The check of each rule that counts has to end well. -/
theorem exists_of_breaches {found : List Breach} (h : m.breaches s p = .ok found) :
    ∀ rule ∈ m.bank.rules, ∃ breaches, m.breachesOf s p rule = .ok breaches := by
  obtain ⟨_, hrules, _⟩ := bind_eq_ok.1 h
  exact exists_of_mapM hrules

/-- The rule on own results reads the cells of all nodes at all times. -/
theorem tableCovers_of_selfBreaches {found : List Breach} (h : m.selfBreaches s p = .ok found) :
    m.tableCovers p = true := by
  obtain ⟨_, _, h⟩ := bind_eq_ok.1 h
  split at h
  · assumption
  · cases h

/-- So a table of the right size is judged only if no cell is missing. -/
theorem SameSize.covers_of_judge (h : m.SameSize p) (hself : .selfResult ∈ m.bank.rules)
    {found : List Breach} (hjudge : m.judge s p = .ok found) : m.Covers p := by
  rw [judge_of_sameSize h] at hjudge
  obtain ⟨_, hcells⟩ := exists_of_breaches hjudge .selfResult hself
  exact h.covers_iff.2 (tableCovers_of_selfBreaches hcells)

/-! ## Tables of another size -/

/-- A table of another size is turned down, provided that its rows can be counted. -/
theorem judge_of_not_sameSize (hs : m.Storable) (h : ¬ m.SameSize p) : m.judge s p =
    if p.horizon + 1 < wordLimit then
      .ok [.wrongTableSize p.nodes (p.horizon + 1) m.nodes (m.horizon + 1)]
    else .error .tooLarge := by
  have hother : ¬ (p.nodes = m.nodes ∧ p.horizon = m.horizon) := h
  rw [judge, if_neg hother]
  split
  · rename_i hfits
    rw [fitting_of_lt hfits, hs.fitting_eq (Nat.le_refl _)]
    rfl
  · rename_i hlarge
    rw [fitting, if_neg hlarge]
    rfl

end Model

/-- A built model under the standard bank judges a claimed table exactly if the table
has the model's size and all its cells, or has another size and rows that a machine
word can count.  It passes just the tables of the first kind that satisfy the rules,
and finds a single thing wrong with those of the second kind. -/
theorem judge_answers_iff {p : Problem} {m : Model} (h : p.model .standard = .ok m) (s : Schedule)
    (claimed : Possession) :
    ((∃ breaches, m.judge s claimed = .ok breaches) ↔
      m.Covers claimed ∨ (¬ m.SameSize claimed ∧ claimed.horizon + 1 < wordLimit)) ∧
    (m.judge s claimed = .ok [] ↔
      m.Covers claimed ∧ ∀ rule ∈ RuleBank.standard.rules, m.Satisfies s claimed rule) ∧
    (¬ m.SameSize claimed → claimed.horizon + 1 < wordLimit → m.judge s claimed =
      .ok [.wrongTableSize claimed.nodes (claimed.horizon + 1) m.nodes (m.horizon + 1)]) := by
  have hm := wellFormed_of_model h
  have hother : ¬ m.SameSize claimed → m.judge s claimed = _ :=
    Model.judge_of_not_sameSize (storable_of_model h)
  have hself : Rule.selfResult ∈ m.bank.rules := by
    rw [bank_of_model h]
    decide
  have hreports : m.Covers claimed → Reports (m.judge s claimed)
      (∀ rule ∈ RuleBank.standard.rules, m.Satisfies s claimed rule) := by
    intro hcovers
    have hrules := Model.reports_judge hm hcovers s
    rw [bank_of_model h] at hrules
    exact hrules
  refine ⟨⟨?_, ?_⟩, ⟨?_, ?_⟩, ?_⟩
  · rintro ⟨breaches, hjudge⟩
    by_cases hsame : m.SameSize claimed
    · exact .inl (hsame.covers_of_judge hself hjudge)
    · refine .inr ⟨hsame, ?_⟩
      rw [hother hsame] at hjudge
      split at hjudge
      · assumption
      · cases hjudge
  · rintro (hcovers | ⟨hsame, hfits⟩)
    · obtain ⟨breaches, hjudge, _⟩ := hreports hcovers
      exact ⟨breaches, hjudge⟩
    · exact ⟨_, by rw [hother hsame, if_pos hfits]⟩
  · intro hpassed
    have hcovers : m.Covers claimed :=
      Model.SameSize.covers_of_judge (Model.size_eq_of_judge_eq_nil hpassed) hself hpassed
    exact ⟨hcovers, (hreports hcovers).eq_nil_iff.1 hpassed⟩
  · rintro ⟨hcovers, hrules⟩
    exact (hreports hcovers).eq_nil_iff.2 hrules
  · intro hsame hfits
    rw [hother hsame, if_pos hfits]

/-- The replay of the meeting, which is four rows of five cells. -/
def meetingTable : Possession := meetingSchedule.table 5 3

/-- A table with a row less is turned down. -/
def shorterTable : Possession where
  nodes := 5
  horizon := 2
  cells := Array.replicate 15 ∅

/-- The judge of the meeting has an answer for the replay and for a table that is
shorter than that. -/
theorem meetingClaims_judged :
    meeting.model .standard = .ok meetingModel ∧
      (∃ breaches, meetingModel.judge meetingSchedule meetingTable = .ok breaches) ∧
      ¬ meetingModel.SameSize shorterTable ∧ shorterTable.horizon + 1 < wordLimit ∧
      meetingModel.judge meetingSchedule shorterTable = .ok [.wrongTableSize 5 3 5 4] := by
  have hbuilt : meeting.model .standard = .ok meetingModel := rfl
  have hcovers : meetingModel.Covers meetingTable := Model.covers_table meetingSchedule
  have hshorter : ¬ meetingModel.SameSize shorterTable := fun hsame => absurd hsame.2 (by decide)
  have hfits : shorterTable.horizon + 1 < wordLimit := by decide
  exact ⟨hbuilt, (judge_answers_iff hbuilt meetingSchedule meetingTable).1.2 (.inl hcovers),
    hshorter, hfits,
    (judge_answers_iff hbuilt meetingSchedule shorterTable).2.2 hshorter hfits⟩

/-- A table of the right size without any cells. -/
def hollowTable : Possession where
  nodes := 5
  horizon := 3
  cells := #[]

/-- A table with the latest horizon that can be read. -/
def endlessTable : Possession where
  nodes := 5
  horizon := 18446744073709551615
  cells := #[]

/-- Both can be read from their forms, and for neither has the judge an answer. -/
theorem unfitClaims_not_judged :
    meeting.model .standard = .ok meetingModel ∧
      (Possession.ofJson? hollowTable.toJson = some hollowTable ∧
        meetingModel.judge meetingSchedule hollowTable = .error (.outOfBounds 7 0)) ∧
      Possession.ofJson? endlessTable.toJson = some endlessTable ∧
        meetingModel.judge meetingSchedule endlessTable = .error .tooLarge :=
  ⟨rfl, ⟨rfl, rfl⟩, rfl, rfl⟩

end ChainPropagation
