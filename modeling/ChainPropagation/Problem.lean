import ChainPropagation.Ranks
import ChainPropagation.SolveError

/-!
# Problems

A problem is a number of nodes, a horizon and a rank for each node, as they
are given. It is well formed if the number of nodes is within range, there is
one rank for each node, no rank is negative, some rank is 0 and both endpoints
have the highest rank. `Problem.faults` lists what is wrong, in this order.

## Main definitions

* `nodeCountFault`, `rankFaults` — the two halves of the check.
* `inputFaults` — the whole check.
* `Chain.ofNodes`, `Ranks.ofList` — a chain and its ranks, checked.
-/

namespace ChainPropagation

/-- A problem as it is given. -/
structure Problem where
  nodes : Nat
  horizon : Nat
  ranks : List Int
  deriving DecidableEq

/-- What can be wrong with a problem. -/
inductive InputFault where
  | nodeCount (nodes : Nat)
  | rankCount (given nodes : Nat)
  | negativeRank (node : Nat) (rank : Int)
  | noRankZero
  | endpointNotHighest (endpoint : Nat) (rank highest : Int)
  deriving DecidableEq

namespace InputFault

/-- The sentence about a fault. -/
def message : InputFault → String
  | nodeCount nodes =>
    let limit := NodeSet.capacity
    s!"node count {nodes} outside supported range 2..={limit}"
  | rankCount given nodes => s!"{given} ranks given for {nodes} nodes"
  | negativeRank node rank => s!"node {node} has negative rank {rank}"
  | noRankZero => "no node has rank 0"
  | endpointNotHighest endpoint rank highest =>
    s!"endpoint {endpoint} has rank {rank} below the maximum rank {highest}"

/-- The error that a single fault amounts to. -/
def error (fault : InputFault) : SolveError := .configuration fault.message

/-- The error that several faults amount to together. -/
def errorOfAll (faults : List InputFault) : SolveError :=
  .configuration ("; ".intercalate (faults.map message))

end InputFault

/-- A chain has at least two nodes, and all of its ids fit into a set. -/
def nodeCountFault (nodes : Nat) : Option InputFault :=
  if 2 ≤ nodes ∧ nodes ≤ NodeSet.capacity then none else some (.nodeCount nodes)

/-- The endpoints that do not have the highest rank. -/
def endpointFaults (ranks : List Int) : List InputFault :=
  match ranks.max? with
  | none => []
  | some highest =>
    [0, ranks.length - 1].filterMap fun endpoint =>
      let rank := ranks.getD endpoint highest
      if rank = highest then none else some (.endpointNotHighest endpoint rank highest)

/-- What is wrong with the ranks for a number of nodes. If there are too many or
too few, nothing else is looked at. -/
def rankFaults (ranks : List Int) (nodes : Nat) : List InputFault :=
  if ranks.length ≠ nodes then [.rankCount ranks.length nodes]
  else
    (ranks.zipIdx.filter (·.1 < 0)).map (fun (rank, node) => .negativeRank node rank) ++
      (if ranks.contains 0 then [] else [.noRankZero]) ++ endpointFaults ranks

/-- What is wrong with a number of nodes and their ranks. Without nodes there
is nothing to say about ranks. -/
def inputFaults (nodes : Nat) (ranks : List Int) : List InputFault :=
  (nodeCountFault nodes).toList ++ (if nodes = 0 then [] else rankFaults ranks nodes)

/-- What is wrong with a problem. -/
def Problem.faults (p : Problem) : List InputFault := inputFaults p.nodes p.ranks

/-- A chain of so many nodes. -/
def Chain.ofNodes (nodes : Nat) : Except InputFault Chain :=
  match nodeCountFault nodes with
  | some fault => .error fault
  | none => .ok { nodes }

/-- The ranks of a chain, unless something is wrong with them. -/
def Ranks.ofList (c : Chain) (ranks : List Int) : Except InputFault Ranks :=
  match rankFaults ranks c.nodes with
  | fault :: _ => .error fault
  | [] => .ok (assign c ranks)

end ChainPropagation
