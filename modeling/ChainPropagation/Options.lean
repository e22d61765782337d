/-!
# Options of a search

How long a search may take, and how it starts. `Options.standard` sets no
limits.
-/

namespace ChainPropagation

/-- How to search. -/
structure Options where
  /-- how many search nodes may be explored -/
  maxNodes : Option Nat
  /-- how many milliseconds may pass -/
  maxMilliseconds : Option Nat
  /-- how many workers share the search; 0 leaves it open -/
  workers : Nat
  /-- how many subtrees are opened before one is searched to its end -/
  frontier : Nat
  /-- how many random dives come first -/
  dives : Nat
  /-- the seed of the first dive -/
  seed : Nat
  /-- how probable a dive sends a message -/
  sendProbability : Float

namespace Options

/-- A message is sent or not with equal probability. -/
def evenProbability : Float := 0.5

/-- The number itself if it is a probability, else the nearest one; what is not
a number counts as even. -/
def nearestProbability (p : Float) : Float :=
  if p.isNaN then evenProbability
  else if p < 0.0 then 0.0
  else if p > 1.0 then 1.0
  else p

/-- No limits, 64 subtrees, 32 dives. -/
def standard : Options where
  maxNodes := none
  maxMilliseconds := none
  workers := 0
  frontier := 64
  dives := 32
  seed := 42
  sendProbability := evenProbability

/-- Another number of subtrees, at least one. -/
def withFrontier (o : Options) (size : Nat) : Options := { o with frontier := max size 1 }

/-- Another probability, clamped. -/
def withSendProbability (o : Options) (p : Float) : Options :=
  { o with sendProbability := nearestProbability p }

end Options

end ChainPropagation
