import TableQuery.Number.Shortest
import TableQuery.Text.Letter

/-! # Numbers in text

A number is written by its shortest decimal: in positions while the point stands at
most 21 digits to the right of the first digit or six zeros to its left, otherwise
with one digit before the point and an exponent. Both zeros are `0`. Text is read
back as a sign, digits with an optional point, and an optional exponent.
-/
namespace TableQuery.Number
open TableQuery.Text

def zeros (n : Nat) : List Char := List.replicate n '0'

/-- The digits of a decimal with the point where its exponent puts it. -/
def layout (d : Decimal) : List Char :=
  let digits := Nat.toDigits 10 d.digits
  let count := digits.length
  let point := d.exponent + count
  if 0 ≤ d.exponent ∧ point ≤ 21 then digits ++ zeros d.exponent.toNat
  else if 0 < point ∧ point ≤ 21 then
    digits.take point.toNat ++ '.' :: digits.drop point.toNat
  else if -6 < point ∧ point ≤ 0 then '0' :: '.' :: zeros (-point).toNat ++ digits
  else
    let exponent := point - 1
    let sign := if exponent < 0 then '-' else '+'
    let mantissa := if count = 1 then digits else digits.take 1 ++ '.' :: digits.drop 1
    mantissa ++ 'e' :: sign :: Nat.toDigits 10 exponent.natAbs

def textChars (x : Float) : List Char :=
  if isNaN x then "NaN".toList
  else
    let word := magnitude x
    let body :=
      if word = infiniteWord then "Infinity".toList
      else if word = 0 then ['0']
      else layout (shortest word)
    if isNegative x && word != 0 then '-' :: body else body

def text (x : Float) : String := String.ofList (textChars x)

/-- A finite double below `10 ^ 21` is rounded at the sixth decimal place, a half away from
zero; any other stays. -/
def roundSix (x : Float) : Float :=
  let word := magnitude x
  if isFinite x && decide (scaled word < Nat.pow 10 21 * Nat.pow 2 1074) then
    let millionths := (2 * scaled word * Nat.pow 10 6 + Nat.pow 2 1074) / Nat.pow 2 1075
    ofWord (isNegative x) (nearest millionths (Nat.pow 10 6))
  else x

def digitsValue (cs : List Char) : Nat := cs.foldl (fun n c => n * 10 + (c.toNat - 48)) 0

/-- The sign at the start of a text and what follows it. -/
def splitSign : List Char → Bool × List Char
  | '-' :: rest => (true, rest)
  | '+' :: rest => (false, rest)
  | cs => (false, cs)

/-- Digits before a point, digits after it, and the rest; the second list is missing where there
is no point. -/
def splitPoint (cs : List Char) : List Char × Option (List Char) × List Char :=
  let whole := cs.takeWhile Char.isDigit
  match cs.dropWhile Char.isDigit with
  | '.' :: rest => (whole, some (rest.takeWhile Char.isDigit), rest.dropWhile Char.isDigit)
  | rest => (whole, none, rest)

/-- An exponent that ends the text: nothing, or `e`, a sign and digits. -/
def exponent? : List Char → Option Int
  | [] => some 0
  | c :: rest =>
    if c.toLower == 'e' then
      let (negative, digits) := splitSign rest
      if digits.isEmpty || !digits.all Char.isDigit then none
      else
        let n : Int := digitsValue digits
        some (if negative then -n else n)
    else none

/-- A decimal text without its sign. At least one digit stands beside the point. -/
def unsigned? (cs : List Char) : Option Decimal :=
  let (whole, fraction, rest) := splitPoint cs
  let places := fraction.getD []
  if whole.isEmpty && places.isEmpty then none
  else
    (exponent? rest).map fun e => ⟨digitsValue (whole ++ places), e - places.length⟩

/-- The number written by a decimal text with an optional sign. -/
def ofDecimalText? (cs : List Char) : Option Float :=
  let (negative, rest) := splitSign cs
  (unsigned? rest).map (Decimal.toFloat negative)

/-- The value of a whole number in a base, if every character is a digit of the base. -/
def ofBase? (base : Nat) (cs : List Char) : Option Float :=
  if cs.isEmpty then none
  else
    let digit (c : Char) : Nat :=
      if c.isDigit then c.toNat - 48 else if c.isAlpha then c.toLower.toNat - 87 else base
    if cs.all (fun c => digit c < base) then
      some (ofNat (cs.foldl (fun n c => n * base + digit c) 0))
    else none

/-- The number that a text stands for: a decimal, an infinity, or a whole number in base 16, 8
or 2; no text is zero, and a text that is none of these is not a number. -/
def ofText (s : String) : Float :=
  let cs := trim s.toList
  let nan := ofWord false (infiniteWord + Nat.pow 2 51)
  match cs with
  | [] => ofWord false 0
  | '0' :: 'x' :: rest | '0' :: 'X' :: rest => (ofBase? 16 rest).getD nan
  | '0' :: 'o' :: rest | '0' :: 'O' :: rest => (ofBase? 8 rest).getD nan
  | '0' :: 'b' :: rest | '0' :: 'B' :: rest => (ofBase? 2 rest).getD nan
  | _ =>
    let (negative, rest) := splitSign cs
    if rest == "Infinity".toList then ofWord negative infiniteWord
    else (ofDecimalText? cs).getD nan

end TableQuery.Number
