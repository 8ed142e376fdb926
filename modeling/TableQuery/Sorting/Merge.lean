import TableQuery.Sorting.Search

/-! # Merging two sorted runs

Two neighbouring runs are merged from the front or from the back, whichever run is
the shorter. Of equal elements the one of the first run comes first. When one run
supplies many elements in a row the merge gallops: it looks for the place of the
next element of the other run and takes everything before it at once. The number of
elements that starts a gallop adapts itself and is handed on from merge to merge.
-/
namespace TableQuery.Sorting
variable {α : Type} (cmp : α → α → Ordering)

def isLess (a b : α) : Bool := (cmp a b).isLT

/-- A gallop goes on while it gains at least this many elements at a time. -/
def worthwhile : Nat := 7

/-- How a merge from one end goes on. -/
inductive Pace where
  | single (winsA winsB : Nat)
  | galloping

/-- Merges two nonempty rests from the front; `done` holds the merged elements in reverse. The
last element of the first run is known to come last. -/
def mergeFront : Nat → Pace → Nat → List α → List α → List α → Nat × List α
  | fuel + 1, .single winsA winsB, limit, a :: as, b :: bs, done =>
    if isLess cmp b a then
      match bs with
      | [] => (limit, (b :: done).reverse ++ a :: as)
      | _ =>
        if limit ≤ winsB + 1 then mergeFront fuel .galloping (limit + 1) (a :: as) bs (b :: done)
        else mergeFront fuel (.single 0 (winsB + 1)) limit (a :: as) bs (b :: done)
    else
      match as with
      | [last] => (limit, (a :: done).reverse ++ b :: bs ++ [last])
      | _ =>
        if limit ≤ winsA + 1 then mergeFront fuel .galloping (limit + 1) as (b :: bs) (a :: done)
        else mergeFront fuel (.single (winsA + 1) 0) limit as (b :: bs) (a :: done)
  | fuel + 1, .galloping, limit, as, b :: bs, done =>
    let limit := max 1 (limit - 1)
    let gainA := gallop (fun x => !isLess cmp b x) false as
    let done := (as.take gainA).reverse ++ done
    match as.drop gainA, bs with
    | [], _ => (limit, done.reverse ++ b :: bs)
    | [last], _ => (limit, done.reverse ++ b :: bs ++ [last])
    | a :: as, [] => (limit, (b :: done).reverse ++ a :: as)
    | a :: as, bs =>
      let gainB := gallop (fun x => isLess cmp x a) false bs
      let done := (bs.take gainB).reverse ++ b :: done
      match bs.drop gainB, as with
      | [], _ => (limit, done.reverse ++ a :: as)
      | bs, [last] => (limit, (a :: done).reverse ++ bs ++ [last])
      | bs, as =>
        if worthwhile ≤ gainA ∨ worthwhile ≤ gainB then
          mergeFront fuel .galloping limit as bs (a :: done)
        else mergeFront fuel (.single 0 0) (limit + 1) as bs (a :: done)
  | _, _, limit, as, bs, done => (limit, done.reverse ++ as ++ bs)

/-- Merges two nonempty rests, both reversed, from the back; `done` holds the merged elements in
order. The first element of the second run is known to come first. -/
def mergeBack : Nat → Pace → Nat → List α → List α → List α → Nat × List α
  | fuel + 1, .single winsA winsB, limit, a :: as, b :: bs, done =>
    if isLess cmp b a then
      match as with
      | [] => (limit, bs.reverse ++ b :: a :: done)
      | _ =>
        if limit ≤ winsA + 1 then mergeBack fuel .galloping (limit + 1) as (b :: bs) (a :: done)
        else mergeBack fuel (.single (winsA + 1) 0) limit as (b :: bs) (a :: done)
    else
      match bs with
      | [first] => (limit, first :: (as.reverse ++ a :: b :: done))
      | _ =>
        if limit ≤ winsB + 1 then mergeBack fuel .galloping (limit + 1) (a :: as) bs (b :: done)
        else mergeBack fuel (.single 0 (winsB + 1)) limit (a :: as) bs (b :: done)
  | fuel + 1, .galloping, limit, as, b :: bs, done =>
    let limit := max 1 (limit - 1)
    let gainA := gallop (isLess cmp b) true as
    let done := (as.take gainA).reverse ++ done
    match as.drop gainA, bs with
    | [], _ => (limit, bs.reverse ++ b :: done)
    | as, [first] => (limit, first :: (as.reverse ++ b :: done))
    | a :: as, bs =>
      let gainB := gallop (fun x => !isLess cmp x a) true bs
      let done := (bs.take gainB).reverse ++ b :: done
      match bs.drop gainB, as with
      | [], as => (limit, as.reverse ++ a :: done)
      | [first], as => (limit, first :: (as.reverse ++ a :: done))
      | bs, [] => (limit, bs.reverse ++ a :: done)
      | bs, as =>
        if worthwhile ≤ gainA ∨ worthwhile ≤ gainB then
          mergeBack fuel .galloping limit as bs (a :: done)
        else mergeBack fuel (.single 0 0) (limit + 1) as bs (a :: done)
  | _, _, limit, as, bs, done => (limit, bs.reverse ++ (as.reverse ++ done))

/-- Merges two neighbouring runs. What already stands at its place at both ends is left out of
the merge, which then works from the side of the shorter rest. -/
def mergeRuns (limit : Nat) (first second : List α) : Nat × List α :=
  match second with
  | [] => (limit, first)
  | b :: _ =>
    let settled := gallop (fun x => !isLess cmp b x) false first
    let as := first.drop settled
    match as.getLast? with
    | none => (limit, first ++ second)
    | some last =>
      let back := second.reverse
      let fixed := gallop (fun x => !isLess cmp x last) true back
      let bs := second.take (second.length - fixed)
      let close (merged : List α) : List α :=
        first.take settled ++ merged ++ second.drop (second.length - fixed)
      let fuel := as.length + bs.length
      if as.length ≤ bs.length then
        match bs with
        | [] => (limit, first ++ second)
        | b :: bs =>
          match as, bs with
          | as, [] => (limit, close (b :: as))
          | [last], bs => (limit, close (b :: bs ++ [last]))
          | as, bs => (mergeFront cmp fuel (.single 0 0) limit as bs [b]).map id close
      else
        match as.reverse, back.drop fixed with
        | _, [] => (limit, first ++ second)
        | [], _ => (limit, first ++ second)
        | [a], bs => (limit, close (bs.reverse ++ [a]))
        | a :: as, [first] => (limit, close (first :: (as.reverse ++ [a])))
        | a :: as, bs => (mergeBack cmp fuel (.single 0 0) limit as bs [a]).map id close

end TableQuery.Sorting
