import ChainPropagation.Problem

/-!
# Models

A model is a chain with its ranks, a horizon and the rules that a schedule is
judged by. `Problem.model` builds one from a problem that is well formed; its
horizon is never longer than the square of the number of nodes, which is
enough for any schedule to end. A model may also be read from outside, and then
nothing is known about it.
-/

namespace ChainPropagation

/-- What a schedule is made for and judged against. -/
structure Model where
  chain : Chain
  ranks : Ranks
  /-- the last time of a schedule -/
  horizon : Nat
  bank : RuleBank
  deriving DecidableEq

/-- The model of a problem under a bank of rules. -/
def Problem.model (p : Problem) (bank : RuleBank) : Except SolveError Model :=
  match p.faults with
  | [] =>
    let chain : Chain := { nodes := p.nodes }
    .ok {
      chain
      ranks := .assign chain p.ranks
      horizon := min p.horizon (p.nodes * p.nodes)
      bank }
  | faults => .error (InputFault.errorOfAll faults)

namespace Model

/-- The number of nodes. -/
def nodes (m : Model) : Nat := m.chain.nodes

end Model

end ChainPropagation
