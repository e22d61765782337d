import ChainPropagation.NodeSet

/-!
# The chain

Nodes `0, 1, …, N - 1` stand in a line; each exchanges messages with the nodes
beside it. The first and the last node are the endpoints. The nodes between
them are intermediate: each executes once and owns a result, which is named by
the node's id.

A chain that was read without a check may have any number of nodes. One
without nodes has no far end, so what asks for it has a checked form; the total
forms `farEnd`, `inner`, `isInner` and `resultSet` are meant for chains that
have nodes, and the checked ones agree with them there.
-/

namespace ChainPropagation

/-- A line of nodes. -/
structure Chain where
  nodes : Nat
  deriving DecidableEq

namespace Chain

/-! ## Total views -/

/-- The last node, for a chain that has nodes. -/
def farEnd (c : Chain) : Nat := c.nodes - 1

/-- The nodes between the endpoints, in order. -/
def inner (c : Chain) : List Nat := List.range' 1 (c.nodes - 2)

/-- Whether a node stands between the endpoints. -/
def isInner (c : Chain) (node : Nat) : Bool := 0 < node && node + 1 < c.nodes

/-- The results there are, for a chain whose ids fit into a set. -/
def resultSet (c : Chain) : NodeSet := .ofList c.inner

/-- Whether two nodes of the chain stand side by side. -/
def sideBySide (c : Chain) (a b : Nat) : Bool :=
  a < c.nodes && b < c.nodes && (a + 1 == b || b + 1 == a)

/-- The number of hops from one node to another. -/
def hops (a b : Nat) : Nat := (a - b) + (b - a)

/-- The nodes beside a node, the left one first. -/
def beside (c : Chain) (node : Nat) : List Nat :=
  (if 0 < node then [node - 1] else []) ++ (if node + 1 < c.nodes then [node + 1] else [])

/-- Every pair of a node and one beside it, by node. -/
def links (c : Chain) : List (Nat × Nat) :=
  (List.range c.nodes).flatMap fun node => (c.beside node).map (node, ·)

/-- The hops that a result next to one endpoint needs to the other one. -/
def crossing (c : Chain) : Nat := c.nodes - 2

/-! ## Checked views -/

/-- The last node. -/
def farEndChecked (c : Chain) : Checked Nat :=
  if c.nodes = 0 then .error .emptyChain else .ok c.farEnd

/-- Whether a node is an endpoint. Node 0 always is. -/
def isEnd (c : Chain) (node : Nat) : Checked Bool :=
  if node = 0 then .ok true else return node == (← c.farEndChecked)

/-- Whether a node is intermediate. Node 0 never is. -/
def isInnerChecked (c : Chain) (node : Nat) : Checked Bool :=
  if node = 0 then .ok false else return node < (← c.farEndChecked)

/-- The intermediate nodes, in order. -/
def innerChecked (c : Chain) : Checked (List Nat) := do
  let _ ← c.farEndChecked
  return c.inner

/-- The number of results. -/
def resultCount (c : Chain) : Checked Nat := do
  let _ ← c.farEndChecked
  return c.nodes - 2

/-- The results there are; the highest of them has to fit into a set. -/
def resultSetChecked (c : Chain) : Checked NodeSet := do
  let _ ← c.farEndChecked
  if NodeSet.capacity + 1 < c.nodes then throw (.idTooLarge NodeSet.capacity)
  return c.resultSet

/-- The nodes beside a node, the left one first. -/
def besideChecked (c : Chain) (node : Nat) : Checked (List Nat) := do
  let _ ← fitting (node + 1)
  return c.beside node

/-- A horizon that is long enough for any schedule to end: the square of the
number of nodes. -/
def ampleHorizon (c : Chain) : Checked Nat := fitting (c.nodes * c.nodes)

end Chain

end ChainPropagation
