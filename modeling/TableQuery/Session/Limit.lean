import TableQuery.Number.Nearest

/-! # Row limits

A query may carry a limit, and so may its caller; the smaller one counts. A caller's
limit that is not positive is none.
-/
namespace TableQuery.Limit

def effective (ofQuery : Option Float) (ofCaller : Float) : Option Float :=
  let positive := Number.order ofCaller (Number.ofNat 0) == .gt
  match ofQuery, positive with
  | some q, true => some (Number.least q ofCaller)
  | some q, false => some q
  | none, true => some ofCaller
  | none, false => none

/-- The first rows up to a limit; a fraction of a row is none. -/
def cut {α : Type} (limit : Option Float) (rows : List α) : List α :=
  match limit with
  | none => rows
  | some x =>
    if Number.magnitude x == Number.infiniteWord then rows
    else rows.take (Number.wholePart (Number.magnitude x))

end TableQuery.Limit
