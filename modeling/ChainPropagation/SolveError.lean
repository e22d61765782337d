import ChainPropagation.Violation

/-!
# Errors

Two things end the work on a problem without an answer: the problem is not
well formed, or a schedule that was found breaks a rule. That no schedule
exists is an answer and not an error.
-/

namespace ChainPropagation

/-- Why there is no answer. -/
inductive SolveError where
  | configuration (reason : String)
  | inconsistency (violations : List Violation)
  deriving DecidableEq

namespace SolveError

/-- The sentence of the first violation. -/
def firstMessage : List Violation → String
  | [] => "<none>"
  | v :: _ => v.message

/-- The sentence about an error. -/
def message : SolveError → String
  | configuration reason => s!"configuration error: {reason}"
  | inconsistency violations =>
    let count := violations.length
    let first := firstMessage violations
    s!"internal inconsistency: {count} constraint violation(s), first: {first}"

end SolveError

end ChainPropagation
