/-!
# Rules

A schedule is judged by a bank of rules. Each rule has a name; the bank says
which ones count, and in which order they report. A bank that is given from
outside may leave rules out or list them twice.
-/

namespace ChainPropagation

/-- What a schedule has to satisfy. -/
inductive Rule where
  /-- every intermediate node executes once, by the horizon, and no other node -/
  | taskExecution
  /-- a node executes only when it holds what it waits for; rank 0 at time 0 -/
  | rankEnablement
  /-- what a node holds next is what it holds, receives and computes -/
  | propagation
  /-- a node holds its own result from its execution on, and only results -/
  | selfResult
  /-- at time 0 a node holds at most its own result -/
  | initialization
  /-- at the horizon both endpoints hold every result -/
  | boundaryCompleteness
  /-- messages differ, are not empty, and carry what the sender holds -/
  | sendFeasibility
  /-- messages join nodes that stand side by side -/
  | adjacency
  /-- a node of rank 0 sends to some node beside it of a higher rank -/
  | rankZeroAnnounce
  deriving DecidableEq

namespace Rule

/-- All rules, in the order in which they are listed. -/
def all : List Rule :=
  [taskExecution, rankEnablement, propagation, selfResult, initialization,
    boundaryCompleteness, sendFeasibility, adjacency, rankZeroAnnounce]

/-- The word for a rule. -/
def name : Rule → String
  | taskExecution => "TaskExecution"
  | rankEnablement => "RankEnablement"
  | propagation => "Propagation"
  | selfResult => "SelfResult"
  | initialization => "Initialization"
  | boundaryCompleteness => "BoundaryCompleteness"
  | sendFeasibility => "SendFeasibility"
  | adjacency => "Adjacency"
  | rankZeroAnnounce => "Rank0Announce"

/-- The rule that a word names. -/
def named? (word : String) : Option Rule := all.find? (·.name == word)

end Rule

/-- The rules that count, in the order in which they report. -/
structure RuleBank where
  rules : List Rule
  deriving DecidableEq

namespace RuleBank

/-- All rules but the announcement of rank 0. -/
def standard : RuleBank where
  rules := [.taskExecution, .rankEnablement, .propagation, .selfResult, .initialization,
    .boundaryCompleteness, .sendFeasibility, .adjacency]

/-- Whether a rule counts. -/
def contains (bank : RuleBank) (rule : Rule) : Bool := bank.rules.contains rule

/-- The bank with a rule that it need not have yet. -/
def add (bank : RuleBank) (rule : Rule) : RuleBank :=
  if bank.contains rule then bank else { rules := bank.rules ++ [rule] }

theorem mem_rules_add {bank : RuleBank} {rule other : Rule} :
    other ∈ (bank.add rule).rules ↔ other ∈ bank.rules ∨ other = rule := by
  unfold add
  split
  · rename_i hthere
    have hmem : rule ∈ bank.rules := List.contains_iff_mem.1 hthere
    constructor
    · exact .inl
    · rintro (hold | rfl)
      · exact hold
      · exact hmem
  · rw [List.mem_append, List.mem_singleton]

end RuleBank

end ChainPropagation
