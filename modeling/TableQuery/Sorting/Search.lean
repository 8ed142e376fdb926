/-! # Searching a sorted list

`bisect` finds how many elements of a list satisfy a test that holds of a front part
only. `gallop` finds the same number from the front, doubling its steps before it
bisects; where the list is a reversed one, the middle of an interval is rounded to
the other side. For a test that comes and goes the answers depend on the places
looked at.
-/
namespace TableQuery.Sorting
variable {α : Type}

def testAt (p : α → Bool) (xs : List α) (i : Nat) : Bool :=
  match xs[i]? with
  | some x => p x
  | none => false

/-- Narrows the interval `low ≤ n ≤ high` of possible answers. -/
def bisectFrom (p : α → Bool) (reversed : Bool) (xs : List α) : Nat → Nat → Nat → Nat
  | 0, low, _ => low
  | fuel + 1, low, high =>
    if low < high then
      let middle := if reversed then low + (high - low - 1) / 2 else low + (high - low) / 2
      if testAt p xs middle then bisectFrom p reversed xs fuel (middle + 1) high
      else bisectFrom p reversed xs fuel low middle
    else low

def bisect (p : α → Bool) (xs : List α) : Nat := bisectFrom p false xs xs.length 0 xs.length

/-- The last place where the test held and the next place to look at. -/
def stride (p : α → Bool) (xs : List α) : Nat → Nat → Nat → Nat × Nat
  | 0, last, offset => (last, offset)
  | fuel + 1, last, offset =>
    if offset < xs.length && testAt p xs offset then stride p xs fuel offset (2 * offset + 1)
    else (last, offset)

def gallop (p : α → Bool) (reversed : Bool) (xs : List α) : Nat :=
  if testAt p xs 0 then
    let (last, offset) := stride p xs xs.length 0 1
    bisectFrom p reversed xs xs.length (last + 1) (min offset xs.length)
  else 0

end TableQuery.Sorting
