import ChainPropagation.Json

/-!
# Numbers in JSON text

A number is read exactly as `digits · 10 ^ exponent` and then turned into a
whole number, if it is written as one and fits, or into the double next to it:
the nearest one, and of two equally near the one whose last bit is zero. A
number too large for any double is refused.
-/

namespace ChainPropagation.Json

/-- `num / den` rounded to the nearest whole number, a half to the even one. -/
def roundHalfEven (num den : Nat) : Nat :=
  let q := num / den
  let r := num % den
  if 2 * r < den ∨ (2 * r = den ∧ q % 2 = 0) then q else q + 1

/-- The bits of the double nearest to `num / den`. The quotient is scaled by a
power of two to 53 digits, fewer if it is so small that the exponent ends
first, and rounded; a carry into a 54th digit moves the exponent by itself. -/
def nearestBits (num den : Nat) : Nat :=
  if num = 0 then 0
  else
    let guess : Int := (num.log2 : Int) - den.log2 - 52
    let scaled := fun e : Int => (num <<< (-e).toNat, den <<< e.toNat)
    let exponent :=
      if (scaled guess).1 < (scaled guess).2 <<< 52 then guess - 1 else guess
    let exponent := max exponent (-1074)
    let digits := roundHalfEven (scaled exponent).1 (scaled exponent).2
    min ((exponent + 1074).toNat <<< 52 + digits) (2047 <<< 52)

/-- The double nearest to `digits · 10 ^ exponent`, with its sign. Beyond the
exponents of doubles the power of ten is not computed. -/
def nearestFloat (negative : Bool) (digits : Nat) (exponent : Int) : Float :=
  let bits :=
    if exponent < -400 - digits.log2 then 0
    else if 400 < exponent then (if digits = 0 then 0 else 2047 <<< 52)
    else nearestBits (digits * Nat.pow 10 exponent.toNat) (Nat.pow 10 (-exponent).toNat)
  Float.ofBits (UInt64.ofNat (if negative then bits + 1 <<< 63 else bits))

/-- The value of a double; infinity is the value of no number. -/
def ofFinite? (x : Float) : Option Json := if x.isFinite then some (.real x) else none

/-- The value of a number that is written without fraction and exponent. -/
def ofWhole? (negative : Bool) (digits : Nat) : Option Json :=
  let inWord := if negative then 0 < digits ∧ digits ≤ 1 <<< 63 else digits < 1 <<< 64
  if inWord then some (.int (if negative then -(digits : Int) else digits))
  else ofFinite? (nearestFloat negative digits 0)

/-- The number written by a list of decimal digits. -/
def digitsValue (digits : List Char) : Nat :=
  digits.foldl (fun n c => 10 * n + (c.toNat - '0'.toNat)) 0

/-- The digits at the front, which must not be none, and what follows them. -/
def digits? (cs : List Char) : Option (List Char × List Char) :=
  let digits := cs.takeWhile Char.isDigit
  if digits.isEmpty then none else some (digits, cs.dropWhile Char.isDigit)

/-- The exponent at the end of a number: nothing, or `e` and a whole number. -/
def exponent? : List Char → Option (Option Int)
  | [] => some none
  | e :: rest =>
    if e ≠ 'e' ∧ e ≠ 'E' then none
    else
      let (negative, rest) := match rest with
        | '-' :: rest => (true, rest)
        | '+' :: rest => (false, rest)
        | rest => (false, rest)
      match digits? rest with
      | some (digits, []) =>
        some (some (if negative then -(digitsValue digits : Int) else digitsValue digits))
      | _ => none

/-- The number that a run of characters writes, if it writes one. -/
def number? (cs : List Char) : Option Json := do
  let (negative, cs) := match cs with
    | '-' :: rest => (true, rest)
    | cs => (false, cs)
  let (whole, cs) ← digits? cs
  if 1 < whole.length ∧ whole.head? = some '0' then none
  let (fraction, cs) ← match cs with
    | '.' :: rest => (digits? rest).map fun (digits, rest) => (some digits, rest)
    | cs => some (none, cs)
  match fraction, ← exponent? cs with
  | none, none => ofWhole? negative (digitsValue whole)
  | fraction, exponent =>
    let fraction := fraction.getD []
    ofFinite? (nearestFloat negative (digitsValue (whole ++ fraction))
      (exponent.getD 0 - fraction.length))

/-- The value of a number field: a whole number stands for the double next to
it. -/
def float? : Json → Option Float
  | .int n => some (nearestFloat (n < 0) n.natAbs 0)
  | .real x => some x
  | _ => none

end ChainPropagation.Json
