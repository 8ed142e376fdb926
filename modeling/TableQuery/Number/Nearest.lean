import TableQuery.Number.Double

/-! # The double nearest to a fraction

A fraction is rounded to the nearest double, a fraction half way between two
doubles to the one with the even word, and what lies beyond the largest double to
infinity. The carry of a rounding runs into the exponent by itself, because
consecutive doubles have consecutive words.
-/
namespace TableQuery.Number

def nearest (n d : Nat) : Nat :=
  let units := n * Nat.pow 2 1074 / d
  let step := units.log2 - 52
  let word := step * Nat.pow 2 52 + units / Nat.pow 2 step
  let excess := 2 * (units % Nat.pow 2 step * d + n * Nat.pow 2 1074 % d)
  let gap := Nat.pow 2 step * d
  let up := decide (gap < excess) || (excess == gap && word % 2 == 1)
  min (if up then word + 1 else word) infiniteWord

/-- A decimal number `digits * 10 ^ exponent`. -/
structure Decimal where
  digits : Nat
  exponent : Int
  deriving DecidableEq

namespace Decimal

def digitCount (n : Nat) : Nat := (Nat.toDigits 10 n).length

/-- The word of the double nearest to a decimal. Powers far outside the range of doubles are
not raised. -/
def word (d : Decimal) : Nat :=
  if d.digits = 0 then 0
  else
    let top := (digitCount d.digits : Int) + d.exponent
    if 400 < top then infiniteWord
    else if top < -400 then 0
    else if 0 ≤ d.exponent then nearest (d.digits * Nat.pow 10 d.exponent.toNat) 1
    else nearest d.digits (Nat.pow 10 (-d.exponent).toNat)

def toFloat (negative : Bool) (d : Decimal) : Float := ofWord negative d.word

end Decimal

/-- A natural number as a double, rounded where it has more than 53 bits. -/
def ofNat (n : Nat) : Float := ofWord false (nearest n 1)

end TableQuery.Number
