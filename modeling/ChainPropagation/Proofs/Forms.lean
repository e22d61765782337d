import ChainPropagation.Interchange.Model
import ChainPropagation.Interchange.Outcome

/-!
# Forms are read back

Every type that is exchanged has a form and a reader.  They have to agree on the names
of the fields, on the words of the enumerations and on how sets are listed.  What is
read from the form of a value is that value, whatever is in it, as long as its numbers
are in range: naturals of a machine word, and ranks of 32 bits.  No reader yields any
other values, so those in range are just the ones that can be read at all.

`Json.ReadsBack` and `Json.Yields` say this of a form and a reader; both are carried
from scalars to lists and from there, one record at a time, to models and outcomes.

## Main results

* `NodeSet.exists_ofJson?` — which set is read from a list of ids, and its form.
* `Model.readsBack`, `Outcome.readsBack` — the largest of the records.
* `Model.yields`, `Outcome.yields` — what is read is in range.
-/

namespace ChainPropagation

namespace Json

/-! ## Scalars, lists and fields -/

/-- Values of which `fits` holds are read back from their forms. -/
def ReadsBack {α : Type} (form : α → Json) (read : Json → Option α) (fits : α → Prop) : Prop :=
  ∀ a, fits a → read (form a) = some a

/-- Of whatever is read `fits` holds. -/
def Yields {α : Type} (read : Json → Option α) (fits : α → Prop) : Prop :=
  ∀ j a, read j = some a → fits a

theorem intWithin?_int {low high n : Int} (hlow : low ≤ n) (hhigh : n ≤ high) :
    intWithin? low high (.int n) = some n :=
  if_pos ⟨hlow, hhigh⟩

theorem intWithin?_yields (low high : Int) :
    Yields (intWithin? low high) fun n => low ≤ n ∧ n ≤ high := by
  intro j n h
  unfold intWithin? at h
  split at h
  · split at h
    · rename_i hwithin
      cases h
      exact hwithin
    · cases h
  · cases h

theorem nat_readsBack : ReadsBack nat nat? (· < wordLimit) := by
  intro n hn
  have hword : (n : Int) ≤ 0xffffffffffffffff := by
    unfold wordLimit at hn
    omega
  rw [nat?, nat, intWithin?_int (Int.natCast_nonneg n) hword]
  rfl

theorem nat_yields : Yields nat? (· < wordLimit) := by
  intro j n h
  obtain ⟨m, hm, rfl⟩ := Option.map_eq_some_iff.1 h
  obtain ⟨hlow, hhigh⟩ := intWithin?_yields _ _ j m hm
  show m.toNat < 0x10000000000000000
  omega

/-- A whole number of 32 bits with sign. -/
def Fits32 (n : Int) : Prop := -0x80000000 ≤ n ∧ n ≤ 0x7fffffff

theorem int32_readsBack : ReadsBack int int32? Fits32 :=
  fun _ hn => intWithin?_int hn.1 hn.2

theorem int32_yields : Yields int32? Fits32 :=
  intWithin?_yields _ _

variable {α : Type} {form : α → Json} {read : Json → Option α} {fits : α → Prop}

theorem ReadsBack.list (h : ReadsBack form read fits) :
    ReadsBack (list form) (·.list? read) fun entries => ∀ a ∈ entries, fits a := by
  intro entries hentries
  show (entries.map form).mapM read = some entries
  induction entries with
  | nil => rfl
  | cons a entries ih =>
      have hothers := ih fun b hb => hentries b (List.mem_cons_of_mem a hb)
      rw [List.map_cons, List.mapM_cons, h a (hentries a List.mem_cons_self), hothers]
      rfl

theorem Yields.list (h : Yields read fits) :
    Yields (·.list? read) fun entries => ∀ a ∈ entries, fits a := by
  intro j entries hread
  change list? read j = some entries at hread
  unfold list? at hread
  split at hread
  · rename_i items
    induction items generalizing entries with
    | nil =>
        cases hread
        exact nofun
    | cons item items ih =>
        rw [List.mapM_cons] at hread
        obtain ⟨a, ha, hread⟩ := Option.bind_eq_some_iff.1 hread
        obtain ⟨others, hothers, hread⟩ := Option.bind_eq_some_iff.1 hread
        cases hread
        exact List.forall_mem_cons.2 ⟨h item a ha, ih others hothers⟩
  · cases hread

theorem Yields.field (h : Yields read fits) {members : List (String × Json)} {name : String} {a : α}
    (hread : field? members name read = some a) : fits a := by
  obtain ⟨j, _, hvalue⟩ := Option.bind_eq_some_iff.1 hread
  exact h j a hvalue

theorem Yields.defaultField (h : Yields read fits) {members : List (String × Json)} {name : String}
    {default a : α} (hdefault : fits default)
    (hread : defaultField? members name default read = some a) : fits a := by
  unfold defaultField? at hread
  split at hread
  · cases hread
    exact hdefault
  · exact h _ a hread

@[simp] theorem record?_obj (names : List String) (members : List (String × Json)) :
    record? names (.obj members) = some members := rfl

@[simp] theorem partialRecord?_obj (names : List String) (members : List (String × Json)) :
    partialRecord? names (.obj members) = some members := rfl

@[simp] theorem member?_nil (name : String) : member? [] name = none := rfl

/-- The last member of a name counts. -/
@[simp] theorem member?_cons (members : List (String × Json)) (name key : String) (j : Json) :
    member? ((key, j) :: members) name =
      (member? members name).or (if key = name then some j else none) := by
  unfold member?
  rw [List.reverse_cons, List.find?_append]
  cases members.reverse.find? (·.1 == name) with
  | some found => rfl
  | none => by_cases hkey : key = name <;> simp [hkey]

end Json

open Json (ReadsBack Yields nat_readsBack nat_yields int32_readsBack int32_yields Fits32)

/-! ## Sets, schedules, violations -/

namespace NodeSet

theorem ofJson?_eq {ids : List Nat} (h : ∀ id ∈ ids, id < capacity) :
    ofJson? (.list .nat ids) = some (ofList ids) := by
  have hwords : ∀ id ∈ ids, id < wordLimit := fun id hid =>
    Nat.lt_trans (h id hid) (by decide)
  have hread : (Json.list Json.nat ids).list? Json.nat? = some ids := nat_readsBack.list ids hwords
  rw [ofJson?, hread, Option.bind_eq_bind, Option.bind_some, ofIds_eq h]

theorem readsBack : ReadsBack toJson ofJson? fun _ => True := by
  intro s _
  have hfit : ∀ id ∈ s.toList, id < capacity := fun id hid =>
    lt_capacity_of_contains (mem_toList.1 hid)
  rw [toJson, ofJson?_eq hfit, ofList_toList]

/-- Any list of ids that fit is read as the set of them, and the form of that set lists
each of them once, in ascending order. -/
theorem exists_ofJson? {ids : List Nat} (h : ∀ id ∈ ids, id < capacity) :
    ∃ s listed, ofJson? (.list .nat ids) = some s ∧ s.toJson = .list .nat listed ∧
      listed.Pairwise (· < ·) ∧ ∀ id, id ∈ listed ↔ id ∈ ids :=
  ⟨ofList ids, (ofList ids).toList, ofJson?_eq h, rfl, pairwise_toList _,
    fun _ => mem_toList_ofList h⟩

end NodeSet

namespace Execution

/-- Its numbers are machine words. -/
structure InRange (e : Execution) : Prop where
  node_lt : e.node < wordLimit
  time_lt : e.time < wordLimit

theorem readsBack : ReadsBack toJson ofJson? InRange := by
  intro e h
  simp [ofJson?, toJson, Json.field?, nat_readsBack _ h.node_lt, nat_readsBack _ h.time_lt]

theorem yields : Yields ofJson? InRange := by
  intro j e h
  obtain ⟨members, _, h⟩ := Option.bind_eq_some_iff.1 h
  obtain ⟨node, hnode, h⟩ := Option.bind_eq_some_iff.1 h
  obtain ⟨time, htime, h⟩ := Option.bind_eq_some_iff.1 h
  cases h
  exact ⟨nat_yields.field hnode, nat_yields.field htime⟩

end Execution

namespace Message

/-- Its numbers are machine words. -/
structure InRange (a : Message) : Prop where
  sender_lt : a.sender < wordLimit
  receiver_lt : a.receiver < wordLimit
  time_lt : a.time < wordLimit

theorem readsBack : ReadsBack toJson ofJson? InRange := by
  intro a h
  simp [ofJson?, toJson, Json.field?, nat_readsBack _ h.sender_lt, nat_readsBack _ h.receiver_lt,
    nat_readsBack _ h.time_lt, NodeSet.readsBack _ trivial]

theorem yields : Yields ofJson? InRange := by
  intro j a h
  obtain ⟨members, _, h⟩ := Option.bind_eq_some_iff.1 h
  obtain ⟨sender, hsender, h⟩ := Option.bind_eq_some_iff.1 h
  obtain ⟨receiver, hreceiver, h⟩ := Option.bind_eq_some_iff.1 h
  obtain ⟨time, htime, h⟩ := Option.bind_eq_some_iff.1 h
  obtain ⟨payload, hpayload, h⟩ := Option.bind_eq_some_iff.1 h
  cases h
  exact ⟨nat_yields.field hsender, nat_yields.field hreceiver, nat_yields.field htime⟩

end Message

namespace Schedule

/-- The numbers of its events are machine words. -/
structure InRange (s : Schedule) : Prop where
  executions : ∀ e ∈ s.executions, e.InRange
  messages : ∀ a ∈ s.messages, a.InRange

theorem readsBack : ReadsBack toJson ofJson? InRange := by
  intro s h
  simp [ofJson?, toJson, Json.field?, Execution.readsBack.list _ h.executions,
    Message.readsBack.list _ h.messages]

theorem yields : Yields ofJson? InRange := by
  intro j s h
  obtain ⟨members, _, h⟩ := Option.bind_eq_some_iff.1 h
  obtain ⟨executions, hexecutions, h⟩ := Option.bind_eq_some_iff.1 h
  obtain ⟨messages, hmessages, h⟩ := Option.bind_eq_some_iff.1 h
  cases h
  exact ⟨Execution.yields.list.field hexecutions, Message.yields.list.field hmessages⟩

end Schedule

namespace Rule

theorem named?_name (r : Rule) : named? r.name = some r := by
  cases r <;> rfl

theorem readsBack : ReadsBack toJson ofJson? fun _ => True :=
  fun r _ => named?_name r

end Rule

namespace Violation

/-- Its number is a machine word. -/
structure InRange (v : Violation) : Prop where
  node_lt : v.node < wordLimit

theorem readsBack : ReadsBack toJson ofJson? InRange := by
  intro v h
  simp [ofJson?, toJson, Json.field?, Json.str?, Rule.readsBack _ trivial,
    nat_readsBack _ h.node_lt]

theorem yields : Yields ofJson? InRange := by
  intro j v h
  obtain ⟨members, _, h⟩ := Option.bind_eq_some_iff.1 h
  obtain ⟨rule, hrule, h⟩ := Option.bind_eq_some_iff.1 h
  obtain ⟨node, hnode, h⟩ := Option.bind_eq_some_iff.1 h
  obtain ⟨message, hmessage, h⟩ := Option.bind_eq_some_iff.1 h
  cases h
  exact ⟨nat_yields.field hnode⟩

end Violation

/-! ## Problems and models -/

namespace Chain

/-- Its number is a machine word. -/
structure InRange (c : Chain) : Prop where
  nodes_lt : c.nodes < wordLimit

theorem readsBack : ReadsBack toJson ofJson? InRange := by
  intro c h
  simp [ofJson?, toJson, Json.field?, nat_readsBack _ h.nodes_lt]

theorem yields : Yields ofJson? InRange := by
  intro j c h
  obtain ⟨members, _, h⟩ := Option.bind_eq_some_iff.1 h
  obtain ⟨nodes, hnodes, h⟩ := Option.bind_eq_some_iff.1 h
  cases h
  exact ⟨nat_yields.field hnodes⟩

end Chain

namespace Ranks

/-- Ranks have 32 bits, and nodes are machine words. -/
structure InRange (r : Ranks) : Prop where
  values : ∀ rank ∈ r.values, Fits32 rank
  sequence : ∀ node ∈ r.sequence, node < wordLimit

theorem readsBack : ReadsBack toJson ofJson? InRange := by
  intro r h
  simp [ofJson?, toJson, Json.field?, int32_readsBack.list _ h.values,
    NodeSet.readsBack.list _ fun _ _ => trivial, nat_readsBack.list _ h.sequence]

theorem yields : Yields ofJson? InRange := by
  intro j r h
  obtain ⟨members, _, h⟩ := Option.bind_eq_some_iff.1 h
  obtain ⟨values, hvalues, h⟩ := Option.bind_eq_some_iff.1 h
  obtain ⟨awaited, hawaited, h⟩ := Option.bind_eq_some_iff.1 h
  obtain ⟨sequence, hsequence, h⟩ := Option.bind_eq_some_iff.1 h
  cases h
  exact ⟨int32_yields.list.field hvalues, nat_yields.list.field hsequence⟩

end Ranks

namespace Possession

/-- Its size is given in machine words. -/
structure InRange (p : Possession) : Prop where
  nodes_lt : p.nodes < wordLimit
  horizon_lt : p.horizon < wordLimit

theorem readsBack : ReadsBack toJson ofJson? InRange := by
  intro p h
  simp [ofJson?, toJson, Json.field?, nat_readsBack _ h.nodes_lt, nat_readsBack _ h.horizon_lt,
    NodeSet.readsBack.list _ fun _ _ => trivial]

theorem yields : Yields ofJson? InRange := by
  intro j p h
  obtain ⟨members, _, h⟩ := Option.bind_eq_some_iff.1 h
  obtain ⟨nodes, hnodes, h⟩ := Option.bind_eq_some_iff.1 h
  obtain ⟨horizon, hhorizon, h⟩ := Option.bind_eq_some_iff.1 h
  obtain ⟨cells, hcells, h⟩ := Option.bind_eq_some_iff.1 h
  cases h
  exact ⟨nat_yields.field hnodes, nat_yields.field hhorizon⟩

end Possession

theorem RuleBank.readsBack : ReadsBack RuleBank.toJson RuleBank.ofJson? fun _ => True := by
  intro bank _
  simp [RuleBank.ofJson?, RuleBank.toJson, Json.field?, Rule.readsBack.list _ fun _ _ => trivial]

namespace Problem

/-- Its numbers are machine words, its ranks have 32 bits. -/
structure InRange (p : Problem) : Prop where
  nodes_lt : p.nodes < wordLimit
  horizon_lt : p.horizon < wordLimit
  ranks : ∀ rank ∈ p.ranks, Fits32 rank

theorem readsBack : ReadsBack toJson ofJson? InRange := by
  intro p h
  simp [ofJson?, toJson, Json.field?, nat_readsBack _ h.nodes_lt, nat_readsBack _ h.horizon_lt,
    int32_readsBack.list _ h.ranks]

theorem yields : Yields ofJson? InRange := by
  intro j p h
  obtain ⟨members, _, h⟩ := Option.bind_eq_some_iff.1 h
  obtain ⟨nodes, hnodes, h⟩ := Option.bind_eq_some_iff.1 h
  obtain ⟨horizon, hhorizon, h⟩ := Option.bind_eq_some_iff.1 h
  obtain ⟨ranks, hranks, h⟩ := Option.bind_eq_some_iff.1 h
  cases h
  exact ⟨nat_yields.field hnodes, nat_yields.field hhorizon, int32_yields.list.field hranks⟩

end Problem

namespace Model

/-- All its numbers are in range. -/
structure InRange (m : Model) : Prop where
  chain : m.chain.InRange
  ranks : m.ranks.InRange
  horizon_lt : m.horizon < wordLimit

theorem readsBack : ReadsBack toJson ofJson? InRange := by
  intro m h
  simp [ofJson?, toJson, Json.field?, Chain.readsBack _ h.chain, Ranks.readsBack _ h.ranks,
    nat_readsBack _ h.horizon_lt, RuleBank.readsBack _ trivial]

theorem yields : Yields ofJson? InRange := by
  intro j m h
  obtain ⟨members, _, h⟩ := Option.bind_eq_some_iff.1 h
  obtain ⟨chain, hchain, h⟩ := Option.bind_eq_some_iff.1 h
  obtain ⟨ranks, hranks, h⟩ := Option.bind_eq_some_iff.1 h
  obtain ⟨horizon, hhorizon, h⟩ := Option.bind_eq_some_iff.1 h
  obtain ⟨bank, hbank, h⟩ := Option.bind_eq_some_iff.1 h
  cases h
  exact ⟨Chain.yields.field hchain, Ranks.yields.field hranks, nat_yields.field hhorizon⟩

end Model

/-! ## Outcomes -/

namespace Effort

/-- Its numbers are machine words. -/
structure InRange (s : Effort) : Prop where
  explored_lt : s.explored < wordLimit
  cutByBound_lt : s.cutByBound < wordLimit
  cutByReach_lt : s.cutByReach < wordLimit
  accepted_lt : s.accepted < wordLimit
  improvements_lt : s.improvements < wordLimit
  elapsed_lt : s.elapsed < wordLimit

theorem readsBack : ReadsBack toJson ofJson? InRange := by
  intro s h
  simp [ofJson?, toJson, Json.defaultField?, nat_readsBack _ h.explored_lt,
    nat_readsBack _ h.cutByBound_lt, nat_readsBack _ h.cutByReach_lt,
    nat_readsBack _ h.accepted_lt, nat_readsBack _ h.improvements_lt,
    nat_readsBack _ h.elapsed_lt]

/-- A figure that is left out is 0. -/
theorem lt_of_defaultField? {members : List (String × Json)} {name : String} {n : Nat}
    (h : Json.defaultField? members name 0 Json.nat? = some n) : n < wordLimit :=
  nat_yields.defaultField (by decide) h

theorem yields : Yields ofJson? InRange := by
  intro j s h
  obtain ⟨members, _, h⟩ := Option.bind_eq_some_iff.1 h
  obtain ⟨explored, hexplored, h⟩ := Option.bind_eq_some_iff.1 h
  obtain ⟨cutByBound, hcutByBound, h⟩ := Option.bind_eq_some_iff.1 h
  obtain ⟨cutByReach, hcutByReach, h⟩ := Option.bind_eq_some_iff.1 h
  obtain ⟨accepted, haccepted, h⟩ := Option.bind_eq_some_iff.1 h
  obtain ⟨improvements, himprovements, h⟩ := Option.bind_eq_some_iff.1 h
  obtain ⟨elapsed, helapsed, h⟩ := Option.bind_eq_some_iff.1 h
  cases h
  exact
    { explored_lt := lt_of_defaultField? hexplored
      cutByBound_lt := lt_of_defaultField? hcutByBound
      cutByReach_lt := lt_of_defaultField? hcutByReach
      accepted_lt := lt_of_defaultField? haccepted
      improvements_lt := lt_of_defaultField? himprovements
      elapsed_lt := lt_of_defaultField? helapsed }

end Effort

namespace Solution

/-- All its numbers are in range. -/
structure InRange (s : Solution) : Prop where
  schedule : s.schedule.InRange
  cost_lt : s.cost < wordLimit
  effort : s.effort.InRange

theorem readsBack : ReadsBack toJson ofJson? InRange := by
  intro s h
  simp [ofJson?, toJson, Json.field?, Json.bool?, Schedule.readsBack _ h.schedule,
    nat_readsBack _ h.cost_lt, Effort.readsBack _ h.effort]

theorem yields : Yields ofJson? InRange := by
  intro j s h
  obtain ⟨members, _, h⟩ := Option.bind_eq_some_iff.1 h
  obtain ⟨schedule, hschedule, h⟩ := Option.bind_eq_some_iff.1 h
  obtain ⟨cost, hcost, h⟩ := Option.bind_eq_some_iff.1 h
  obtain ⟨optimal, hoptimal, h⟩ := Option.bind_eq_some_iff.1 h
  obtain ⟨effort, heffort, h⟩ := Option.bind_eq_some_iff.1 h
  cases h
  exact ⟨Schedule.yields.field hschedule, nat_yields.field hcost, Effort.yields.field heffort⟩

end Solution

namespace Infeasibility

theorem named?_name (r : Infeasibility) : named? r.name = some r := by
  cases r <;> rfl

theorem readsBack : ReadsBack toJson ofJson? fun _ => True :=
  fun r _ => named?_name r

end Infeasibility

namespace Outcome

/-- All numbers of the solution, if there is one, are in range. -/
def InRange : Outcome → Prop
  | feasible solution => solution.InRange
  | infeasible _ => True

theorem readsBack : ReadsBack toJson ofJson? InRange := by
  intro o h
  cases o with
  | feasible solution =>
      have hsolution : Solution.ofJson? solution.toJson = some solution :=
        Solution.readsBack solution h
      simp [ofJson?, toJson, Json.field?, Json.word?, ofParts?, hsolution]
  | infeasible reason =>
      simp [ofJson?, toJson, Json.field?, Json.word?, Json.looseWord?, ofParts?,
        Infeasibility.toJson, Infeasibility.named?_name]

theorem inRange_of_ofParts? {status : String} {result : Json} {word : Json → Option String}
    {o : Outcome} (h : ofParts? status result word = some o) : o.InRange := by
  unfold ofParts? at h
  split at h
  · obtain ⟨solution, hsolution, h⟩ := Option.bind_eq_some_iff.1 h
    cases h
    exact Solution.yields result solution hsolution
  · obtain ⟨name, _, h⟩ := Option.bind_eq_some_iff.1 h
    obtain ⟨reason, _, h⟩ := Option.bind_eq_some_iff.1 h
    cases h
    exact trivial
  · cases h

theorem yields : Yields ofJson? InRange := by
  intro j o h
  unfold ofJson? at h
  split at h
  · obtain ⟨status, _, h⟩ := Option.bind_eq_some_iff.1 h
    obtain ⟨result, _, h⟩ := Option.bind_eq_some_iff.1 h
    exact inRange_of_ofParts? h
  · obtain ⟨status, _, h⟩ := Option.bind_eq_some_iff.1 h
    exact inRange_of_ofParts? h
  · cases h

end Outcome

end ChainPropagation
