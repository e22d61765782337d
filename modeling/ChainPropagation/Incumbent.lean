import ChainPropagation.Schedule

/-!
# The incumbent

While schedules are found one after another, the incumbent keeps the best so
far: the first one with the fewest messages. Its bound is what a schedule has
to stay below in order to be better; as long as there is no schedule that is
the largest machine word.
-/

namespace ChainPropagation

/-- The best schedule so far. -/
structure Incumbent where
  /-- the number of messages to stay below -/
  bound : Nat
  /-- how often a better schedule came -/
  improvements : Nat
  best : Option Schedule
  deriving DecidableEq

namespace Incumbent

/-- No schedule so far. -/
def fresh : Incumbent := { bound := wordLimit - 1, improvements := 0, best := none }

/-- Whether a schedule is better than the best so far. -/
def improvedBy (i : Incumbent) (s : Schedule) : Bool := s.cost < i.bound

/-- The incumbent after one more schedule. -/
def consider (i : Incumbent) (s : Schedule) : Incumbent :=
  if i.improvedBy s then
    { bound := s.cost, improvements := i.improvements + 1, best := some s }
  else i

/-- A schedule is offered: whether it is accepted, and the incumbent after that.
What is not better is turned away at once; what seems to be is considered. -/
def offer (i : Incumbent) (s : Schedule) : Bool × Incumbent :=
  if i.improvedBy s then (true, i.consider s) else (false, i)

/-- To turn a schedule away is to consider it, too. -/
theorem offer_eq (i : Incumbent) (s : Schedule) : i.offer s = (i.improvedBy s, i.consider s) := by
  unfold offer consider
  cases i.improvedBy s <;> rfl

theorem consider_of_lt {i : Incumbent} {s : Schedule} (h : s.cost < i.bound) :
    i.consider s = { bound := s.cost, improvements := i.improvements + 1, best := some s } :=
  if_pos (decide_eq_true h)

/-- A schedule that is no better changes nothing. -/
theorem consider_of_le {i : Incumbent} {s : Schedule} (h : i.bound ≤ s.cost) :
    i.consider s = i :=
  if_neg fun hless => Nat.not_lt.2 h (of_decide_eq_true hless)

end Incumbent

end ChainPropagation
