/-! # Doubles as words

A double is read through its 64-bit word. The word without its sign grows with the
size of the number, so equality and order are those of integers, and the exact
value of every finite double is a natural number of units of `2 ^ -1074`.
-/
namespace TableQuery.Number

def magnitude (x : Float) : Nat := x.toBits.toNat % Nat.pow 2 63

def isNegative (x : Float) : Bool := decide (Nat.pow 2 63 ≤ x.toBits.toNat)

/-- The magnitude of the infinities; larger magnitudes are not numbers. -/
def infiniteWord : Nat := 2047 * Nat.pow 2 52

def isNaN (x : Float) : Bool := decide (infiniteWord < magnitude x)

def isFinite (x : Float) : Bool := decide (magnitude x < infiniteWord)

def ofWord (negative : Bool) (word : Nat) : Float :=
  Float.ofBits (UInt64.ofNat (if negative then Nat.pow 2 63 + word else word))

/-- The place of a double among all doubles; both zeros have place 0. -/
def rank (x : Float) : Int := if isNegative x then -(magnitude x : Int) else magnitude x

/-- Equality of numbers: zeros are equal whatever their sign, and only numbers are equal. -/
def same (x y : Float) : Bool := !isNaN x && !isNaN y && rank x == rank y

/-- The order of numbers; what is not a number differs from nothing. -/
def order (x y : Float) : Ordering :=
  if isNaN x || isNaN y then .eq else compare (rank x) (rank y)

/-- The place of a double where the negative zero comes before the positive one. -/
def signedRank (x : Float) : Int :=
  if isNegative x then -(magnitude x : Int) - 1 else magnitude x

def least (x y : Float) : Float :=
  if isNaN x then x else if isNaN y then y else if signedRank x ≤ signedRank y then x else y

def greatest (x y : Float) : Float :=
  if isNaN x then x else if isNaN y then y else if signedRank y ≤ signedRank x then x else y

/-- The significand of a finite word: 53 bits, or fewer below the normal range. -/
def significand (word : Nat) : Nat :=
  if word < Nat.pow 2 52 then word else Nat.pow 2 52 + word % Nat.pow 2 52

/-- The value of a finite word in units of `2 ^ -1074`. -/
def scaled (word : Nat) : Nat := significand word * Nat.pow 2 (word / Nat.pow 2 52 - 1)

/-- The whole part of the value of a finite word. -/
def wholePart (word : Nat) : Nat := scaled word / Nat.pow 2 1074

/-- The whole number towards zero, with the sign kept; what is not finite stays. -/
def truncate (x : Float) : Float :=
  let word := magnitude x
  let exponent := word / Nat.pow 2 52
  if exponent < 1023 then ofWord (isNegative x) 0
  else if 1075 ≤ exponent then x
  else ofWord (isNegative x) (word - word % Nat.pow 2 (1075 - exponent))

def toInt (x : Float) : Int :=
  if isNegative x then -(wholePart (magnitude x) : Int) else wholePart (magnitude x)

def isIntegral (x : Float) : Bool := isFinite x && magnitude (truncate x) == magnitude x

/-- The least natural number that is not below a number. -/
def ceiling (x : Float) : Nat :=
  if isNegative x then 0
  else if isIntegral x then wholePart (magnitude x)
  else wholePart (magnitude x) + 1

end TableQuery.Number
