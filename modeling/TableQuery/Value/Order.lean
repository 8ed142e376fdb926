import TableQuery.Text.Unit
import TableQuery.Value.Text

/-! # Equality and order of values

Integers and floats are equal by number, all other values only within their kind.
Numbers, strings, booleans and lists of such have a natural order; every other pair
of values is ordered by text.
-/
namespace TableQuery.Value

mutual
def equal : Value → Value → Bool
  | .null, .null => true
  | .bool a, .bool b => a == b
  | .string a, .string b => a == b
  | .list as, .list bs => equalItems as bs
  | .map as, .map bs => as.length == bs.length && equalFields as bs
  | .int x, .int y => Number.same x y
  | .int x, .float y => Number.same x y
  | .float x, .int y => Number.same x y
  | .float x, .float y => Number.same x y
  | _, _ => false

def equalItems : List Value → List Value → Bool
  | [], [] => true
  | a :: as, b :: bs => equal a b && equalItems as bs
  | _, _ => false

/-- Whether every field of the first map has an equal field in the second. -/
def equalFields : List (String × Value) → List (String × Value) → Bool
  | [], _ => true
  | (name, a) :: as, bs =>
    (match Record.get? bs name with
      | some b => equal a b
      | none => false) && equalFields as bs
end

mutual
def compare? : Value → Value → Option Ordering
  | .int x, .int y => some (Number.order x y)
  | .int x, .float y => some (Number.order x y)
  | .float x, .int y => some (Number.order x y)
  | .float x, .float y => some (Number.order x y)
  | .string a, .string b => some (Text.order a b)
  | .bool a, .bool b => some (compare a.toNat b.toNat)
  | .list as, .list bs => compareItems? as bs
  | _, _ => none

def compareItems? : List Value → List Value → Option Ordering
  | [], [] => some .eq
  | [], _ :: _ => some .lt
  | _ :: _, [] => some .gt
  | a :: as, b :: bs =>
    match compare? a b with
    | some .eq => compareItems? as bs
    | unequal => unequal
end

/-- The order that never fails: natural where possible, by text otherwise. -/
def looseOrder (a b : Value) : Ordering := (compare? a b).getD (Text.order a.text b.text)

end TableQuery.Value
