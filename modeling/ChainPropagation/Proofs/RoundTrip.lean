import ChainPropagation.Proofs.Forms
import ChainPropagation.Proofs.Json.Text
import ChainPropagation.Proofs.Verdict

/-!
# Writing and reading values

The forms of schedules, models and outcomes are plain: they have no doubles in them,
and brackets are nested a few levels deep.  So they can be written as text and read
again, and as their readers take them back, whole values can.  Options and figures
about traffic are not among them, as both have a double in them.

Main result: `forms_round_trip`.
-/

namespace ChainPropagation

namespace Json

/-! ## Plain forms -/

variable {α : Type} {form : α → Json} {levels : Nat}

theorem plain_nat {n : Nat} (h : n < wordLimit) : Plain levels (nat n) := by
  have hword : (n : Int) ≤ 0xffffffffffffffff := by
    unfold wordLimit at h
    omega
  have hlow : (-0x8000000000000000 : Int) ≤ n := by omega
  exact .int ⟨hlow, hword⟩

theorem plain_int32 {n : Int} (h : Fits32 n) : Plain levels (int n) := by
  obtain ⟨hlow, hhigh⟩ := h
  exact .int ⟨by omega, by omega⟩

theorem plain_list {entries : List α} (h : ∀ a ∈ entries, Plain levels (form a)) :
    Plain (levels + 1) (list form entries) := by
  refine .arr fun j hj => ?_
  obtain ⟨a, ha, rfl⟩ := List.mem_map.1 hj
  exact h a ha

/-- An object whose members are plain, given one after another. -/
theorem plain_obj {members : List (String × Json)}
    (h : members.Forall fun member => Plain levels member.2) :
    Plain (levels + 1) (.obj members) :=
  .obj (List.forall_iff_forall_mem.1 h)

end Json

open Json (Plain plain_nat plain_int32 plain_list plain_obj)

section

variable {levels : Nat}

theorem NodeSet.plain (s : NodeSet) : Plain (levels + 1) s.toJson :=
  plain_list fun _ hid => plain_nat
    (Nat.lt_trans (lt_capacity_of_contains (mem_toList.1 hid)) (by decide))

theorem Execution.InRange.plain {e : Execution} (h : e.InRange) : Plain (levels + 1) e.toJson :=
  plain_obj ⟨plain_nat h.node_lt, plain_nat h.time_lt⟩

theorem Message.InRange.plain {a : Message} (h : a.InRange) : Plain (levels + 2) a.toJson :=
  plain_obj ⟨plain_nat h.sender_lt, plain_nat h.receiver_lt, plain_nat h.time_lt, a.payload.plain⟩

theorem Schedule.InRange.plain {s : Schedule} (h : s.InRange) : Plain (levels + 4) s.toJson :=
  plain_obj ⟨plain_list fun e he => (h.executions e he).plain,
    plain_list fun a ha => (h.messages a ha).plain⟩

theorem Rule.plain (r : Rule) : Plain levels r.toJson := .str r.name

theorem Violation.InRange.plain {v : Violation} (h : v.InRange) : Plain (levels + 1) v.toJson :=
  plain_obj ⟨v.rule.plain, plain_nat h.node_lt, .str v.message⟩

theorem Chain.InRange.plain {c : Chain} (h : c.InRange) : Plain (levels + 1) c.toJson :=
  plain_obj (plain_nat h.nodes_lt)

theorem Ranks.InRange.plain {r : Ranks} (h : r.InRange) : Plain (levels + 3) r.toJson :=
  plain_obj ⟨plain_list fun rank hrank => plain_int32 (h.values rank hrank),
    plain_list fun s _ => s.plain, plain_list fun node hnode => plain_nat (h.sequence node hnode)⟩

theorem Possession.InRange.plain {p : Possession} (h : p.InRange) : Plain (levels + 3) p.toJson :=
  plain_obj ⟨plain_nat h.nodes_lt, plain_nat h.horizon_lt, plain_list fun s _ => s.plain⟩

theorem RuleBank.plain (bank : RuleBank) : Plain (levels + 2) bank.toJson :=
  plain_obj (plain_list fun rule _ => rule.plain)

theorem Problem.InRange.plain {p : Problem} (h : p.InRange) : Plain (levels + 2) p.toJson :=
  plain_obj ⟨plain_nat h.nodes_lt, plain_nat h.horizon_lt,
    plain_list fun rank hrank => plain_int32 (h.ranks rank hrank)⟩

theorem Model.InRange.plain {m : Model} (h : m.InRange) : Plain (levels + 4) m.toJson :=
  plain_obj ⟨h.chain.plain, h.ranks.plain, plain_nat h.horizon_lt, m.bank.plain⟩

theorem Effort.InRange.plain {s : Effort} (h : s.InRange) : Plain (levels + 1) s.toJson :=
  plain_obj ⟨plain_nat h.explored_lt, plain_nat h.cutByBound_lt, plain_nat h.cutByReach_lt,
    plain_nat h.accepted_lt, plain_nat h.improvements_lt, plain_nat h.elapsed_lt⟩

theorem Solution.InRange.plain {s : Solution} (h : s.InRange) : Plain (levels + 5) s.toJson :=
  plain_obj ⟨h.schedule.plain, plain_nat h.cost_lt, .bool s.provenOptimal, h.effort.plain⟩

theorem Infeasibility.plain (r : Infeasibility) : Plain levels r.toJson := .str r.name

theorem Outcome.InRange.plain {o : Outcome} (h : o.InRange) : Plain (levels + 6) o.toJson := by
  cases o with
  | feasible solution =>
      have hsolution : solution.InRange := h
      exact plain_obj ⟨.str "feasible", hsolution.plain⟩
  | infeasible reason => exact plain_obj ⟨.str "infeasible", reason.plain⟩

end

/-! ## Round trips -/

/-- Values of which `fits` holds are read back from their forms, and from the text that
is written of these.  They are all values that the reader ever yields. -/
structure Json.RoundTrips {α : Type} (form : α → Json) (read : Json → Option α)
    (fits : α → Prop) : Prop where
  fits_iff : ∀ a, fits a ↔ ∃ j, read j = some a
  reads_form : ∀ a, fits a → read (form a) = some a
  reads_text : ∀ a, fits a → (Json.ofText? (form a).text).bind read = some a

theorem Json.ReadsBack.roundTrips {α : Type} {form : α → Json} {read : Json → Option α}
    {fits : α → Prop} (h : Json.ReadsBack form read fits) (hyields : Json.Yields read fits)
    (hplain : ∀ a, fits a → Plain Json.depthLimit (form a)) : Json.RoundTrips form read fits where
  fits_iff a := ⟨fun ha => ⟨form a, h a ha⟩, fun ⟨j, hread⟩ => hyields j a hread⟩
  reads_form := h
  reads_text a ha := by
    rw [Json.ofText?_text (hplain a ha)]
    exact h a ha

/-- Schedules, violations, chains, ranks, tables, banks of rules, models, problems,
figures of a search, solutions, reasons and outcomes are read back, whatever numbers of
their types they contain, from their forms and from the text of these.  A set is read
from any list of its ids, and written as the ascending list of them. -/
theorem forms_round_trip :
    Json.RoundTrips Schedule.toJson Schedule.ofJson? Schedule.InRange ∧
    Json.RoundTrips Violation.toJson Violation.ofJson? Violation.InRange ∧
    Json.RoundTrips Chain.toJson Chain.ofJson? Chain.InRange ∧
    Json.RoundTrips Ranks.toJson Ranks.ofJson? Ranks.InRange ∧
    Json.RoundTrips Possession.toJson Possession.ofJson? Possession.InRange ∧
    Json.RoundTrips RuleBank.toJson RuleBank.ofJson? (fun _ => True) ∧
    Json.RoundTrips Model.toJson Model.ofJson? Model.InRange ∧
    Json.RoundTrips Problem.toJson Problem.ofJson? Problem.InRange ∧
    Json.RoundTrips Effort.toJson Effort.ofJson? Effort.InRange ∧
    Json.RoundTrips Solution.toJson Solution.ofJson? Solution.InRange ∧
    Json.RoundTrips Infeasibility.toJson Infeasibility.ofJson? (fun _ => True) ∧
    Json.RoundTrips Outcome.toJson Outcome.ofJson? Outcome.InRange ∧
    ∀ ids : List Nat, (∀ id ∈ ids, id < NodeSet.capacity) →
      ∃ s listed, NodeSet.ofJson? (.list .nat ids) = some s ∧ s.toJson = .list .nat listed ∧
        listed.Pairwise (· < ·) ∧ ∀ id, id ∈ listed ↔ id ∈ ids :=
  ⟨Schedule.readsBack.roundTrips Schedule.yields fun _ h => h.plain,
    Violation.readsBack.roundTrips Violation.yields fun _ h => h.plain,
    Chain.readsBack.roundTrips Chain.yields fun _ h => h.plain,
    Ranks.readsBack.roundTrips Ranks.yields fun _ h => h.plain,
    Possession.readsBack.roundTrips Possession.yields fun _ h => h.plain,
    RuleBank.readsBack.roundTrips (fun _ _ _ => trivial) fun bank _ => bank.plain,
    Model.readsBack.roundTrips Model.yields fun _ h => h.plain,
    Problem.readsBack.roundTrips Problem.yields fun _ h => h.plain,
    Effort.readsBack.roundTrips Effort.yields fun _ h => h.plain,
    Solution.readsBack.roundTrips Solution.yields fun _ h => h.plain,
    Infeasibility.readsBack.roundTrips (fun _ _ _ => trivial) fun reason _ => reason.plain,
    Outcome.readsBack.roundTrips Outcome.yields fun _ h => h.plain,
    fun _ h => NodeSet.exists_ofJson? h⟩

/-- An answer to the problem of the meeting. -/
def meetingOutcome : Outcome :=
  .feasible ⟨meetingSchedule, 6, true, ⟨40, 12, 3, 2, 1, 0⟩⟩

theorem meetingOutcome_returns : meetingOutcome.InRange ∧
    Outcome.ofJson? meetingOutcome.toJson = some meetingOutcome ∧
    (Json.ofText? meetingOutcome.toJson.text).bind Outcome.ofJson? = some meetingOutcome ∧
    ∃ s listed, NodeSet.ofJson? (.list .nat [63, 5, 0, 5]) = some s ∧
      s.toJson = .list .nat listed ∧ listed.Pairwise (· < ·) ∧
        ∀ id, id ∈ listed ↔ id ∈ [63, 5, 0, 5] := by
  have hexecutions : ∀ e ∈ meetingSchedule.executions, e.node < wordLimit ∧ e.time < wordLimit := by
    decide
  have hmessages : ∀ a ∈ meetingSchedule.messages,
      a.sender < wordLimit ∧ a.receiver < wordLimit ∧ a.time < wordLimit := by
    decide
  have hrange : meetingOutcome.InRange :=
    { schedule :=
        { executions := fun e he => ⟨(hexecutions e he).1, (hexecutions e he).2⟩
          messages := fun a ha => ⟨(hmessages a ha).1, (hmessages a ha).2.1, (hmessages a ha).2.2⟩ }
      cost_lt := by decide
      effort := by constructor <;> decide }
  obtain ⟨_, _, _, _, _, _, _, _, _, _, _, houtcome, hset⟩ := forms_round_trip
  exact ⟨hrange, houtcome.reads_form meetingOutcome hrange,
    houtcome.reads_text meetingOutcome hrange, hset [63, 5, 0, 5] (by decide)⟩

end ChainPropagation
