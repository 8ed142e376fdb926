import TableQuery.Sorting.Merge

/-! # Sorting by runs

A list is cut into runs that are sorted as they stand, or strictly descending and
then reversed. Short runs are lengthened by binary insertion. The runs wait on a
stack and are merged with their neighbours so that the lengths on the stack grow
towards its bottom. Equal elements keep their order.
-/
namespace TableQuery.Sorting
variable {α : Type} (cmp : α → α → Ordering)

/-- The front of a list in which no element is less than the one before it. -/
def climb (previous : α) : List α → List α × List α
  | [] => ([], [])
  | x :: rest =>
    if isLess cmp x previous then ([], x :: rest)
    else
      let (run, rest) := climb x rest
      (x :: run, rest)

/-- The front of a list in which every element is less than the one before it, reversed. -/
def descend (previous : α) (run : List α) : List α → List α × List α
  | [] => (run, [])
  | x :: rest => if isLess cmp x previous then descend x (x :: run) rest else (run, x :: rest)

/-- The longest run at the front of a list, in ascending order, and the rest. -/
def splitRun : List α → List α × List α
  | a :: b :: rest =>
    if isLess cmp b a then descend cmp b [b, a] rest
    else
      let (run, rest) := climb cmp b rest
      (a :: b :: run, rest)
  | xs => (xs, [])

/-- Puts an element behind all that are not greater. -/
def insertSorted (run : List α) (x : α) : List α :=
  let place := bisect (fun y => !isLess cmp x y) run
  run.take place ++ x :: run.drop place

/-- The shortest run worth merging: the list's length where that is below 64, and otherwise its
leading six bits, one more if any other bit is set. -/
def minRunLength (n : Nat) : Nat := if n < 64 then n else go n n 0
where
  go : Nat → Nat → Nat → Nat
  | 0, n, odd => n + odd
  | fuel + 1, n, odd => if n < 64 then n + odd else go fuel (n / 2) (max odd (n % 2))

/-- The stack of runs, the last one on top, and the limit handed from merge to merge. -/
structure Pending (α : Type) where
  limit : Nat
  runs : List (List α)

def mergeTop (p : Pending α) : Pending α :=
  match p.runs with
  | x :: y :: rest =>
    let (limit, run) := mergeRuns cmp p.limit y x
    ⟨limit, run :: rest⟩
  | _ => p

def mergeBelowTop (p : Pending α) : Pending α :=
  match p.runs with
  | x :: rest =>
    let q := mergeTop cmp ⟨p.limit, rest⟩
    ⟨q.limit, x :: q.runs⟩
  | _ => p

/-- Merges runs until each is longer than the next and than the next two together. -/
def collapse : Nat → Pending α → Pending α
  | 0, p => p
  | fuel + 1, p =>
    match p.runs with
    | x :: y :: z :: rest =>
      let deep := match rest with
        | w :: _ => decide (w.length ≤ z.length + y.length)
        | [] => false
      if z.length ≤ y.length + x.length || deep then
        if z.length < x.length then collapse fuel (mergeBelowTop cmp p)
        else collapse fuel (mergeTop cmp p)
      else if y.length ≤ x.length then collapse fuel (mergeTop cmp p)
      else p
    | x :: y :: _ => if y.length ≤ x.length then collapse fuel (mergeTop cmp p) else p
    | _ => p

def collapseAll : Nat → Pending α → Pending α
  | 0, p => p
  | fuel + 1, p =>
    match p.runs with
    | x :: _ :: z :: _ =>
      if z.length < x.length then collapseAll fuel (mergeBelowTop cmp p)
      else collapseAll fuel (mergeTop cmp p)
    | _ :: _ :: _ => collapseAll fuel (mergeTop cmp p)
    | _ => p

/-- Takes runs from the front of a list until it is used up. -/
def takeRuns (minRun : Nat) : Nat → List α → Pending α → Pending α
  | _, [], p => p
  | 0, xs, p => ⟨p.limit, xs :: p.runs⟩
  | fuel + 1, xs, p =>
    let (run, rest) := splitRun cmp xs
    let missing := minRun - run.length
    let run := (rest.take missing).foldl (insertSorted cmp) run
    let p := collapse cmp (p.runs.length + 1) ⟨p.limit, run :: p.runs⟩
    takeRuns minRun fuel (rest.drop missing) p

/-- The elements in ascending order, equal ones in the order of the list. -/
def sort (xs : List α) : List α :=
  let p := takeRuns cmp (minRunLength xs.length) xs.length xs ⟨worthwhile, []⟩
  (collapseAll cmp p.runs.length p).runs.flatten

end TableQuery.Sorting
