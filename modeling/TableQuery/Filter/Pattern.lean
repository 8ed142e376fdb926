import TableQuery.Text.Fold

/-! # Text patterns

In a pattern `%` stands for any run of units and `_` for one unit; every other unit
stands for itself in either case. A text matches when the pattern is found anywhere
in it. The parts of a pattern are taken from the last to the first, and each keeps
for every place of the text whether the pattern from this part on matches there.
-/
namespace TableQuery

inductive PatternPart where
  | unit (u : Nat)
  | one
  | run
  deriving DecidableEq, Repr

namespace Pattern
open Text

def ofText (s : String) : List PatternPart :=
  (units s).map fun u => if u = 0x25 then .run else if u = 0x5F then .one else .unit u

/-- Given for every place of the text whether the rest of the pattern matches there, the same
for the pattern with one more part in front. The last place is the end of the text. -/
def stepBack (part : PatternPart) : List Nat → List Bool → List Bool
  | [], after =>
    match part with
    | .run => [after.headD false]
    | _ => [false]
  | u :: us, after =>
    let rest := stepBack part us after.tail
    match part with
    | .run => (after.headD false || rest.headD false) :: rest
    | .one => after.tail.headD false :: rest
    | .unit v => (foldUnit v == u && after.tail.headD false) :: rest

/-- For every place of a folded text whether the pattern matches there. -/
def places (parts : List PatternPart) (folded : List Nat) : List Bool :=
  parts.foldr (fun part after => stepBack part folded after)
    (List.replicate (folded.length + 1) true)

def matchesText (pattern s : String) : Bool :=
  (places (ofText pattern) ((units s).map foldUnit)).any id

end Pattern
end TableQuery
