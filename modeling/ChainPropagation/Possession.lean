import ChainPropagation.NodeSet

/-!
# The possession table

Which node holds which results at which time: a row for each time from 0 to
the horizon, in it a cell for each node. The cells lie one after another, row
by row, so the cell of a node at a time has one place, `place`.

A table that comes from outside may have fewer cells than its size announces;
`read`, `write` and `writeRowChecked` find out, while `cell` takes a cell that is
not there to be empty, and `writeRow` leaves out what has no place.
-/

namespace ChainPropagation

/-- What each node holds at each time. -/
structure Possession where
  nodes : Nat
  horizon : Nat
  /-- the rows one after another -/
  cells : Array NodeSet
  deriving DecidableEq

namespace Possession

/-- Where the cell of a node at a time lies. -/
def place (p : Possession) (time node : Nat) : Nat := time * p.nodes + node

/-- What a node holds at a time; nothing if the cell is missing. -/
def cell (p : Possession) (time node : Nat) : NodeSet := p.cells.getD (p.place time node) ∅

/-- What a node holds at a time. -/
def read (p : Possession) (time node : Nat) : Checked NodeSet :=
  match p.cells[p.place time node]? with
  | some held => .ok held
  | none => .error (.outOfBounds (p.place time node) p.cells.size)

/-- The table with another entry for a node at a time. -/
def write (p : Possession) (time node : Nat) (held : NodeSet) : Checked Possession :=
  if p.place time node < p.cells.size then
    .ok { p with cells := p.cells.setIfInBounds (p.place time node) held }
  else .error (.outOfBounds (p.place time node) p.cells.size)

/-- Cells with those from `start` on replaced by a row. -/
def splice (cells : Array NodeSet) (start : Nat) : List NodeSet → Array NodeSet
  | [] => cells
  | held :: rest => splice (cells.setIfInBounds start held) (start + 1) rest

/-- The table with another row, given cell by cell. -/
def writeRow : Possession → (time : Nat) → List NodeSet → Possession
  | ⟨nodes, horizon, cells⟩, time, row => ⟨nodes, horizon, splice cells (time * nodes) row⟩

/-- The table with another row, for which there has to be room. -/
def writeRowChecked (p : Possession) (time : Nat) (row : List NodeSet) : Checked Possession :=
  if p.place (time + 1) 0 ≤ p.cells.size ∧ row.length = p.nodes then .ok (p.writeRow time row)
  else .error (.outOfBounds (p.place (time + 1) 0) p.cells.size)

/-- The row of a time, cell by cell. -/
def row (p : Possession) (time : Nat) : List NodeSet := (List.range p.nodes).map (p.cell time)

/-- All rows from time 0 to the horizon. -/
def rows (p : Possession) : List (List NodeSet) := (List.range (p.horizon + 1)).map p.row

/-- The table in which no node ever holds anything. -/
def blank (nodes horizon : Nat) : Checked Possession := do
  let rows ← fitting (horizon + 1)
  storing (nodes * rows)
  return { nodes, horizon, cells := Array.replicate (nodes * rows) ∅ }

/-! ## Rows -/

theorem size_splice (row : List NodeSet) (cells : Array NodeSet) (start : Nat) :
    (splice cells start row).size = cells.size := by
  induction row generalizing cells start with
  | nil => rfl
  | cons held row ih => rw [splice, ih, Array.size_setIfInBounds]

/-- A row is written where there is room for it. -/
theorem writeRowChecked_of_le {p : Possession} {time : Nat} {row : List NodeSet}
    (hroom : p.nodes * (time + 1) ≤ p.cells.size) (hrow : row.length = p.nodes) :
    p.writeRowChecked time row = .ok (p.writeRow time row) := by
  refine if_pos ⟨?_, hrow⟩
  rw [place, Nat.add_zero, Nat.mul_comm]
  exact hroom

end Possession

end ChainPropagation
