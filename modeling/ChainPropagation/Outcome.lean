import ChainPropagation.Schedule
import ChainPropagation.Reach

/-!
# Outcomes

The answer to a model is a schedule, with the effort it took and whether it is
known to have the fewest messages, or the reason why there is none.
-/

namespace ChainPropagation

/-- The effort of a search. -/
structure Effort where
  explored : Nat
  cutByBound : Nat
  cutByReach : Nat
  accepted : Nat
  improvements : Nat
  elapsed : Nat
  deriving DecidableEq

/-- No effort. -/
def Effort.zero : Effort := ⟨0, 0, 0, 0, 0, 0⟩

/-- A schedule that was found. -/
structure Solution where
  schedule : Schedule
  cost : Nat
  provenOptimal : Bool
  effort : Effort
  deriving DecidableEq

/-- The answer to a model. -/
inductive Outcome where
  | feasible (solution : Solution)
  | infeasible (reason : Infeasibility)
  deriving DecidableEq

namespace Outcome

/-- Whether there is a schedule. -/
def isFeasible : Outcome → Bool
  | feasible _ => true
  | infeasible _ => false

/-- The schedule that was found. -/
def solution? : Outcome → Option Solution
  | feasible solution => some solution
  | infeasible _ => none

/-- Why there is none. -/
def reason? : Outcome → Option Infeasibility
  | feasible _ => none
  | infeasible reason => some reason

end Outcome

end ChainPropagation
