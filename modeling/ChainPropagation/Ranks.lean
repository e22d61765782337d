import ChainPropagation.Chain
import ChainPropagation.Sorting

/-!
# Ranks

Every node has a rank. A node waits for the results of all intermediate nodes
of a lower rank; rank 0 waits for nothing. `Ranks.assign` derives from a list
of ranks, once, the set that each node waits for and the order in which the
intermediate nodes can be gone through so that all of the set comes before the
node.
-/

namespace ChainPropagation

/-- The ranks of the nodes of a chain and what follows from them. -/
structure Ranks where
  /-- the rank of each node -/
  values : List Int
  /-- for each node the intermediate nodes of a lower rank -/
  awaited : List NodeSet
  /-- the intermediate nodes by rank and id -/
  sequence : List Nat
  deriving DecidableEq

namespace Ranks

/-- The rank of a node. -/
def rankOf (r : Ranks) (node : Nat) : Checked Int := lookUp r.values node

/-- The results that a node waits for. -/
def awaitedBy (r : Ranks) (node : Nat) : Checked NodeSet := lookUp r.awaited node

/-- The highest rank; 0 if there is none. -/
def highest (r : Ranks) : Int := r.values.max?.getD 0

/-- The nodes whose rank has a property. -/
def nodesWith (r : Ranks) (property : Nat → Int → Bool) : Checked NodeSet :=
  NodeSet.collect ((r.values.zipIdx.filter fun (rank, node) => property node rank).map (·.2))

/-- All nodes of a lower rank, endpoints included. -/
def below (r : Ranks) (node : Nat) : Checked NodeSet := do
  let own ← r.rankOf node
  r.nodesWith fun _ rank => rank < own

/-- The other nodes of the same rank. -/
def peers (r : Ranks) (node : Nat) : Checked NodeSet := do
  let own ← r.rankOf node
  r.nodesWith fun other rank => other != node && rank == own

/-- Whether `a` comes before `b`, or is `b`, when nodes are sorted by rank and
id. -/
def precedes (values : List Int) (a b : Nat) : Bool :=
  let x := values.getD a 0
  let y := values.getD b 0
  x < y || (x == y && a ≤ b)

/-- The ranks of a chain, one for each node. -/
def assign (c : Chain) (values : List Int) : Ranks where
  values := values
  awaited := values.map fun own =>
    NodeSet.ofList (c.inner.filter fun other => values.getD other 0 < own)
  sequence := sorted (precedes values) c.inner

end Ranks

end ChainPropagation
