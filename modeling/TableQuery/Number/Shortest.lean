import TableQuery.Number.Nearest

/-! # The shortest decimal of a double

A double is written with the fewest digits that read back to it and, among those,
with the digits nearest to its value. For each number of digits only the two
neighbours of the value can be nearest, so these two are tried, for one digit and
more until a neighbour reads back.
-/
namespace TableQuery.Number

namespace Decimal

/-- Moves the zeros at the end of the digits into the exponent. -/
def normalize (d : Decimal) : Decimal := go d.digits d
where
  go : Nat → Decimal → Decimal
  | 0, d => d
  | fuel + 1, d =>
    if d.digits % 10 = 0 ∧ d.digits ≠ 0 then go fuel ⟨d.digits / 10, d.exponent + 1⟩ else d

end Decimal

/-- How many decimal places every finite double is first cut to. -/
def cutPlaces : Nat := 350

/-- The value of a word, cut to a whole number of units of `10 ^ -350`. -/
def cutValue (word : Nat) : Nat := scaled word * Nat.pow 10 cutPlaces / Nat.pow 2 1074

/-- Of two neighbouring decimals the one nearer to the value of a word, the even one of two
equally near. -/
def nearer (word : Nat) (low high : Decimal) : Decimal :=
  let shift := (low.exponent + cutPlaces).toNat
  let middle := (low.digits + high.digits) * Nat.pow 10 shift * Nat.pow 2 1074
  let value := 2 * scaled word * Nat.pow 10 cutPlaces
  if value < middle then low
  else if middle < value then high
  else if low.digits % 2 = 0 then low
  else high

/-- The decimal with all but the last `drop` digits of a cut value that reads back to a word, if
there is one. -/
def decimalOf? (word cut drop : Nat) : Option Decimal :=
  let exponent := (drop : Int) - cutPlaces
  let low : Decimal := ⟨cut / Nat.pow 10 drop, exponent⟩
  let high : Decimal := ⟨cut / Nat.pow 10 drop + 1, exponent⟩
  match low.word == word, high.word == word with
  | true, true => some (nearer word low high)
  | true, false => some low
  | false, true => some high
  | false, false => none

/-- The decimal with the fewest digits that reads back to a word, where at most 17 are enough. -/
def shortDecimal? (word : Nat) : Option Decimal :=
  let cut := cutValue word
  let count := Decimal.digitCount cut
  (List.range' 1 17).findSome? fun digits => decimalOf? word cut (count - digits)

/-- The exact decimal of a word: a binary fraction with `n` places has `n` decimal places. -/
def exactDecimal (word : Nat) : Decimal := ⟨scaled word * Nat.pow 5 1074, -1074⟩

/-- The shortest decimal that reads back to the word of a finite double. Seventeen digits are
enough for every double, and its exact decimal is its own shortest where they are not. -/
def shortest (word : Nat) : Decimal :=
  ((shortDecimal? word).getD (exactDecimal word)).normalize

end TableQuery.Number
