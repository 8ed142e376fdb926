import TableQuery.Number.Nearest
import TableQuery.Query.Nesting

/-! # Walks over the top level

A walk over a text notes each place at which it is at the top level. From there it
goes on by its stride, and by one unit from anywhere else or where the stride is
zero. A stride may be a fraction of a unit: between two units nothing opens or closes.
-/
namespace TableQuery

namespace Nesting

/-- The places noted from a place on. Only a stride from the top level leads between two units, so
the walk is at the top level there. -/
def walk (units : Array Char) (stride : Float) : Nat → Nesting → Float →
    Except Imbalance (List Float)
  | 0, n, _ => n.finish.map fun _ => []
  | steps + 1, n, place =>
    let one := Number.ofNat 1
    if Number.order place (Number.ofNat units.size) != .lt then n.finish.map fun _ => []
    else if Number.isIntegral place then
      let c := units.getD (Number.ceiling place) ' '
      match n.next? c with
      | none => .error .parentheses
      | some m =>
        if n.isTop c then (walk units stride steps m (place + stride)).map (place :: ·)
        else walk units stride steps m (place + one)
    else (walk units stride steps n (place + stride)).map (place :: ·)

def stepsOver (size : Nat) (stride : Float) : Nat :=
  if Number.order (Number.ofNat 0) stride == .lt then
    2 * (Number.ceiling (Number.ofNat size / stride) + size + 1)
  else size + 1

end Nesting

namespace Text

/-- The places noted by a walk over a text; they are whole where the stride is. -/
def topLevelPlaces (clause : Clause) (stride : Float) (s : String) : Except Fault (List Float) :=
  if Number.isIntegral stride then
    (topLevelUnits clause (Number.ceiling stride) s).map fun places => places.map Number.ofNat
  else
    let cs := unitChars s
    (Nesting.walk cs.toArray stride (Nesting.stepsOver cs.length stride) (.outside 0)
      (Number.ofNat 0)).mapError (Imbalance.fault clause)

end Text
end TableQuery
