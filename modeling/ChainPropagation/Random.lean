/-!
# Random words and coins

A generator of random words is a state with a function `next`; a `Coin` turns
words into decisions. A coin that always falls on its head draws no word.

`Xoshiro` is the generator xoshiro256++: four words of state, filled from a
seed by the generator SplitMix64. All arithmetic is modulo `2 ^ 64`. It is one
`Generator`; whatever draws random words takes any.
-/

namespace ChainPropagation

/-! ## Generators -/

/-- A source of random words: the state that a seed leads to, and from each state
a word and the next state. -/
structure Generator (σ : Type) where
  ofSeed : UInt64 → σ
  next : σ → UInt64 × σ

/-- A word with its bits moved up cyclically. -/
def rotate (w : UInt64) (places : UInt64) : UInt64 := (w <<< places) ||| (w >>> (64 - places))

/-- How far SplitMix64 moves on from word to word. -/
def splitStride : UInt64 := 0x9e3779b97f4a7c15

/-- The word that SplitMix64 makes of a state. -/
def splitWord (state : UInt64) : UInt64 :=
  let z := (state ^^^ (state >>> 30)) * 0xbf58476d1ce4e5b9
  let z := (z ^^^ (z >>> 27)) * 0x94d049bb133111eb
  z ^^^ (z >>> 31)

/-- The state of xoshiro256++. -/
structure Xoshiro where
  a : UInt64
  b : UInt64
  c : UInt64
  d : UInt64
  deriving DecidableEq

namespace Xoshiro

/-- The state that a seed leads to: the next four words of SplitMix64. -/
def ofSeed (seed : UInt64) : Xoshiro where
  a := splitWord (seed + splitStride)
  b := splitWord (seed + 2 * splitStride)
  c := splitWord (seed + 3 * splitStride)
  d := splitWord (seed + 4 * splitStride)

/-- The next word, and the state after it. -/
def next (x : Xoshiro) : UInt64 × Xoshiro :=
  let c := x.c ^^^ x.a
  let d := x.d ^^^ x.b
  (rotate (x.a + x.d) 23 + x.a,
    { a := x.a ^^^ d, b := x.b ^^^ c, c := c ^^^ (x.b <<< 17), d := rotate d 45 })

/-- The generator xoshiro256++. -/
def generator : Generator Xoshiro := { ofSeed, next }

end Xoshiro

/-! ## Coins -/

/-- A way to decide at random. -/
inductive Coin where
  /-- head, without drawing a word -/
  | always
  /-- head if the word drawn is below the limit -/
  | below (limit : UInt64)
  deriving DecidableEq

namespace Coin

/-- A coin that falls on its head with a probability between 0 and 1: so many
of the `2 ^ 64` words are below its limit, the fraction cut off. -/
def ofProbability (p : Float) : Coin :=
  if p == 1.0 then .always else .below (p * 18446744073709551616.0).toUInt64

/-- Decides, given a generator and its state. -/
def toss {σ : Type} (next : σ → UInt64 × σ) : Coin → σ → Bool × σ
  | always, s => (true, s)
  | below limit, s =>
    let (word, s) := next s
    (word < limit, s)

end Coin

end ChainPropagation
