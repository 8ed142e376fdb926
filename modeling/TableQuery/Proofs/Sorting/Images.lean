import TableQuery.Sorting.Keys

/-! # Sorting images

The order of a sort depends on nothing but the comparisons it makes. So every step of it
commutes with a function of the elements when images are compared as the elements are, and two
comparisons that agree on all elements sort them alike.
-/
namespace TableQuery.Sorting
variable {α β : Type} (f : α → β)

section
variable (p : β → Bool)

theorem testAt_map (xs : List α) (i : Nat) :
    testAt p (xs.map f) i = testAt (fun x => p (f x)) xs i := by
  unfold testAt
  rw [List.getElem?_map]
  cases xs[i]? <;> rfl

theorem bisectFrom_map (reversed : Bool) (xs : List α) (fuel low high : Nat) :
    bisectFrom p reversed (xs.map f) fuel low high =
      bisectFrom (fun x => p (f x)) reversed xs fuel low high := by
  induction fuel generalizing low high with
  | zero => rfl
  | succ fuel ih => simp only [bisectFrom, testAt_map, ih]

theorem stride_map (xs : List α) (fuel last offset : Nat) :
    stride p (xs.map f) fuel last offset = stride (fun x => p (f x)) xs fuel last offset := by
  induction fuel generalizing last offset with
  | zero => rfl
  | succ fuel ih => simp only [stride, testAt_map, List.length_map, ih]

theorem bisect_map (xs : List α) : bisect p (xs.map f) = bisect (fun x => p (f x)) xs := by
  unfold bisect
  rw [bisectFrom_map, List.length_map]

theorem gallop_map (reversed : Bool) (xs : List α) :
    gallop p reversed (xs.map f) = gallop (fun x => p (f x)) reversed xs := by
  simp only [gallop, testAt_map, stride_map, bisectFrom_map, List.length_map]
end

variable (cmp : β → β → Ordering)

theorem isLess_map (a b : α) :
    isLess cmp (f a) (f b) = isLess (fun a b => cmp (f a) (f b)) a b := by
  unfold isLess
  rfl

theorem mergeFront_map (fuel : Nat) (pace : Pace) (limit : Nat) (as bs done : List α) :
    mergeFront cmp fuel pace limit (as.map f) (bs.map f) (done.map f) =
      (mergeFront (fun a b => cmp (f a) (f b)) fuel pace limit as bs done).map id (List.map f) := by
  induction fuel generalizing pace limit as bs done with
  | zero => simp [mergeFront]
  | succ fuel ih =>
    -- the cases are those of the merge; a run that is searched is named with its two parts, so
    -- that both sides take the same branch
    rcases pace with ⟨winsA, winsB⟩ | _
    · rcases as with _ | ⟨a, as⟩
      · simp [mergeFront]
      rcases bs with _ | ⟨b, bs⟩
      · simp [mergeFront]
      simp only [List.map_cons, mergeFront, isLess_map]
      by_cases hless : isLess (fun a b => cmp (f a) (f b)) b a = true
      · simp only [hless, ↓reduceIte]
        rcases bs with _ | ⟨c, bs⟩
        · simp
        · by_cases hlimit : limit ≤ winsB + 1
          · simpa [hlimit] using ih .galloping (limit + 1) (a :: as) (c :: bs) (b :: done)
          · simpa [hlimit] using ih (.single 0 (winsB + 1)) limit (a :: as) (c :: bs) (b :: done)
      · simp only [hless, Bool.false_eq_true, ↓reduceIte]
        rcases as with _ | ⟨last, _ | ⟨c, as⟩⟩
        · by_cases hlimit : limit ≤ winsA + 1
          · simpa [hlimit] using ih .galloping (limit + 1) [] (b :: bs) (a :: done)
          · simpa [hlimit] using ih (.single (winsA + 1) 0) limit [] (b :: bs) (a :: done)
        · simp
        · by_cases hlimit : limit ≤ winsA + 1
          · simpa [hlimit] using
              ih .galloping (limit + 1) (last :: c :: as) (b :: bs) (a :: done)
          · simpa [hlimit] using
              ih (.single (winsA + 1) 0) limit (last :: c :: as) (b :: bs) (a :: done)
    · rcases bs with _ | ⟨b, bs⟩
      · simp [mergeFront]
      simp only [List.map_cons, mergeFront, gallop_map, isLess_map, ← List.map_drop,
        ← List.map_take]
      generalize gallop _ false as = gainA
      generalize as.take gainA = front
      generalize as.drop gainA = rest
      rcases rest with _ | ⟨a, _ | ⟨c, rest⟩⟩
      · simp
      · simp
      rcases bs with _ | ⟨d, bs⟩
      · simp
      simp only [List.map_cons]
      rw [← List.map_cons, gallop_map]
      simp only [isLess_map, ← List.map_drop, ← List.map_take]
      generalize gallop _ false (d :: bs) = gainB
      generalize (d :: bs).take gainB = front'
      generalize (d :: bs).drop gainB = rest'
      rcases rest' with _ | ⟨e, rest'⟩
      · simp
      rcases rest with _ | ⟨k, rest⟩
      · simp
      by_cases hgain : worthwhile ≤ gainA ∨ worthwhile ≤ gainB
      · simpa [hgain] using ih .galloping (max 1 (limit - 1)) (c :: k :: rest) (e :: rest')
          (a :: (front'.reverse ++ b :: (front.reverse ++ done)))
      · simpa [hgain] using ih (.single 0 0) (max 1 (limit - 1) + 1) (c :: k :: rest) (e :: rest')
          (a :: (front'.reverse ++ b :: (front.reverse ++ done)))

theorem mergeBack_map (fuel : Nat) (pace : Pace) (limit : Nat) (as bs done : List α) :
    mergeBack cmp fuel pace limit (as.map f) (bs.map f) (done.map f) =
      (mergeBack (fun a b => cmp (f a) (f b)) fuel pace limit as bs done).map id (List.map f) := by
  induction fuel generalizing pace limit as bs done with
  | zero => simp [mergeBack]
  | succ fuel ih =>
    rcases pace with ⟨winsA, winsB⟩ | _
    · rcases as with _ | ⟨a, as⟩
      · simp [mergeBack]
      rcases bs with _ | ⟨b, bs⟩
      · simp [mergeBack]
      simp only [List.map_cons, mergeBack, isLess_map]
      by_cases hless : isLess (fun a b => cmp (f a) (f b)) b a = true
      · simp only [hless, ↓reduceIte]
        rcases as with _ | ⟨c, as⟩
        · simp
        · by_cases hlimit : limit ≤ winsA + 1
          · simpa [hlimit] using ih .galloping (limit + 1) (c :: as) (b :: bs) (a :: done)
          · simpa [hlimit] using ih (.single (winsA + 1) 0) limit (c :: as) (b :: bs) (a :: done)
      · simp only [hless, Bool.false_eq_true, ↓reduceIte]
        rcases bs with _ | ⟨first, _ | ⟨c, bs⟩⟩
        · by_cases hlimit : limit ≤ winsB + 1
          · simpa [hlimit] using ih .galloping (limit + 1) (a :: as) [] (b :: done)
          · simpa [hlimit] using ih (.single 0 (winsB + 1)) limit (a :: as) [] (b :: done)
        · simp
        · by_cases hlimit : limit ≤ winsB + 1
          · simpa [hlimit] using
              ih .galloping (limit + 1) (a :: as) (first :: c :: bs) (b :: done)
          · simpa [hlimit] using
              ih (.single 0 (winsB + 1)) limit (a :: as) (first :: c :: bs) (b :: done)
    · rcases bs with _ | ⟨b, bs⟩
      · simp [mergeBack]
      simp only [List.map_cons, mergeBack]
      have hgain : gallop (isLess cmp (f b)) true (as.map f) =
        gallop (isLess (fun a b => cmp (f a) (f b)) b) true as := gallop_map f _ true as
      simp only [hgain, ← List.map_drop, ← List.map_take]
      generalize gallop _ true as = gainA
      generalize as.take gainA = front
      generalize as.drop gainA = rest
      rcases rest with _ | ⟨a, rest⟩
      · simp
      rcases bs with _ | ⟨c, _ | ⟨d, bs⟩⟩
      · simp [gallop, testAt]
      · simp
      simp only [List.map_cons]
      rw [← List.map_cons, ← List.map_cons, gallop_map]
      simp only [isLess_map, ← List.map_drop, ← List.map_take]
      generalize gallop _ true (c :: d :: bs) = gainB
      generalize (c :: d :: bs).take gainB = front'
      generalize (c :: d :: bs).drop gainB = rest'
      rcases rest' with _ | ⟨e, _ | ⟨k, rest'⟩⟩
      · simp
      · simp
      rcases rest with _ | ⟨l, rest⟩
      · simp
      by_cases hgain : worthwhile ≤ gainA ∨ worthwhile ≤ gainB
      · simpa [hgain] using ih .galloping (max 1 (limit - 1)) (l :: rest) (e :: k :: rest')
          (a :: (front'.reverse ++ b :: (front.reverse ++ done)))
      · simpa [hgain] using ih (.single 0 0) (max 1 (limit - 1) + 1) (l :: rest) (e :: k :: rest')
          (a :: (front'.reverse ++ b :: (front.reverse ++ done)))

theorem mergeRuns_map (limit : Nat) (first second : List α) :
    mergeRuns cmp limit (first.map f) (second.map f) =
      (mergeRuns (fun a b => cmp (f a) (f b)) limit first second).map id (List.map f) := by
  rcases second with _ | ⟨b, second⟩
  · simp [mergeRuns]
  simp only [List.map_cons, mergeRuns, gallop_map, isLess_map, ← List.map_drop, ← List.map_take]
  generalize gallop _ false first = settled
  generalize first.take settled = front
  generalize first.drop settled = as
  rw [List.getLast?_map]
  cases as.getLast? with
  | none => simp
  | some last =>
    simp only [Option.map_some]
    rw [← List.map_cons, ← List.map_reverse, gallop_map]
    simp only [isLess_map, List.length_map, ← List.map_drop, ← List.map_take, ← List.map_reverse]
    generalize gallop _ true (b :: second).reverse = fixed
    generalize (b :: second).take ((b :: second).length - fixed) = bs
    generalize (b :: second).drop ((b :: second).length - fixed) = rear
    generalize (b :: second).reverse.drop fixed = back
    have hclose (merged : Nat × List α) :
        (merged.map id (List.map f)).map id (fun l => front.map f ++ l ++ rear.map f) =
          (merged.map id (fun l => front ++ l ++ rear)).map id (List.map f) := by
      simp [Prod.map]
    generalize as.length + bs.length = fuel
    split
    · rcases bs with _ | ⟨c, _ | ⟨d, bs⟩⟩
      · simp
      · simp
      rcases as with _ | ⟨a, _ | ⟨e, as⟩⟩
      · exact (congrArg _ (mergeFront_map f cmp fuel _ limit [] (d :: bs) [c])).trans (hclose _)
      · simp
      · exact (congrArg _ (mergeFront_map f cmp fuel _ limit (a :: e :: as) (d :: bs) [c])).trans
          (hclose _)
    · generalize as.reverse = as
      rcases back with _ | ⟨c, back⟩
      · simp
      rcases as with _ | ⟨a, _ | ⟨e, as⟩⟩
      · simp
      · simp
      rcases back with _ | ⟨d, back⟩
      · simp
      exact (congrArg _ (mergeBack_map f cmp fuel _ limit (e :: as) (c :: d :: back) [a])).trans
        (hclose _)

theorem climb_map (previous : α) (xs : List α) :
    climb cmp (f previous) (xs.map f) =
      (climb (fun a b => cmp (f a) (f b)) previous xs).map (List.map f) (List.map f) := by
  induction xs generalizing previous with
  | nil => rfl
  | cons x xs ih =>
    simp only [List.map_cons, climb, isLess_map, ih]
    split <;> rfl

theorem descend_map (previous : α) (run xs : List α) :
    descend cmp (f previous) (run.map f) (xs.map f) =
      (descend (fun a b => cmp (f a) (f b)) previous run xs).map (List.map f) (List.map f) := by
  induction xs generalizing previous run with
  | nil => rfl
  | cons x xs ih =>
    simp only [List.map_cons, descend, isLess_map]
    by_cases hless : isLess (fun a b => cmp (f a) (f b)) x previous = true
    · rw [if_pos hless, if_pos hless]
      exact ih x (x :: run)
    · rw [if_neg hless, if_neg hless]
      rfl

theorem splitRun_map (xs : List α) :
    splitRun cmp (xs.map f) =
      (splitRun (fun a b => cmp (f a) (f b)) xs).map (List.map f) (List.map f) := by
  rcases xs with _ | ⟨a, _ | ⟨b, xs⟩⟩
  · rfl
  · rfl
  simp only [List.map_cons, splitRun, isLess_map, climb_map]
  split
  · exact descend_map f cmp b [b, a] xs
  · rfl

theorem insertSorted_map (run : List α) (x : α) :
    insertSorted cmp (run.map f) (f x) =
      (insertSorted (fun a b => cmp (f a) (f b)) run x).map f := by
  simp only [insertSorted, bisect_map, isLess_map, List.map_append, List.map_cons, List.map_take,
    List.map_drop]

theorem foldl_insertSorted_map (xs run : List α) :
    (xs.map f).foldl (insertSorted cmp) (run.map f) =
      (xs.foldl (insertSorted fun a b => cmp (f a) (f b)) run).map f := by
  induction xs generalizing run with
  | nil => rfl
  | cons x xs ih => rw [List.map_cons, List.foldl_cons, List.foldl_cons, insertSorted_map, ih]

def Pending.map (p : Pending α) : Pending β := ⟨p.limit, p.runs.map (List.map f)⟩

theorem mergeTop_map (p : Pending α) :
    mergeTop cmp (p.map f) = (mergeTop (fun a b => cmp (f a) (f b)) p).map f := by
  obtain ⟨limit, runs⟩ := p
  rcases runs with _ | ⟨top, _ | ⟨below, rest⟩⟩
  · rfl
  · rfl
  · simp only [Pending.map, mergeTop, List.map_cons, mergeRuns_map]
    rfl

theorem mergeBelowTop_map (p : Pending α) :
    mergeBelowTop cmp (p.map f) = (mergeBelowTop (fun a b => cmp (f a) (f b)) p).map f := by
  obtain ⟨limit, runs⟩ := p
  cases runs with
  | nil => rfl
  | cons top rest =>
    have hmerge := mergeTop_map f cmp ⟨limit, rest⟩
    simp only [Pending.map, mergeBelowTop, List.map_cons] at hmerge ⊢
    rw [hmerge]

theorem collapse_map (fuel : Nat) (p : Pending α) :
    collapse cmp fuel (p.map f) = (collapse (fun a b => cmp (f a) (f b)) fuel p).map f := by
  induction fuel generalizing p with
  | zero => rfl
  | succ fuel ih =>
    have htop := ih (mergeTop (fun a b => cmp (f a) (f b)) p)
    have hbelow := ih (mergeBelowTop (fun a b => cmp (f a) (f b)) p)
    rw [← mergeTop_map] at htop
    rw [← mergeBelowTop_map] at hbelow
    obtain ⟨limit, runs⟩ := p
    rcases runs with _ | ⟨x, _ | ⟨y, _ | ⟨z, rest⟩⟩⟩
    · rfl
    · rfl
    · have hruns : (Pending.mk limit [x, y]).map f = ⟨limit, [x.map f, y.map f]⟩ := rfl
      rw [hruns] at htop ⊢
      simp only [collapse, List.length_map]
      split
      · exact htop
      · rfl
    · have hruns : (Pending.mk limit (x :: y :: z :: rest)).map f =
          ⟨limit, x.map f :: y.map f :: z.map f :: rest.map (List.map f)⟩ := rfl
      rw [hruns] at htop hbelow ⊢
      cases rest <;>
      · simp only [collapse, List.map_nil, List.map_cons, List.length_map] at htop hbelow ⊢
        split
        · split
          · exact hbelow
          · exact htop
        · split
          · exact htop
          · rfl

theorem collapseAll_map (fuel : Nat) (p : Pending α) :
    collapseAll cmp fuel (p.map f) = (collapseAll (fun a b => cmp (f a) (f b)) fuel p).map f := by
  induction fuel generalizing p with
  | zero => rfl
  | succ fuel ih =>
    have htop := ih (mergeTop (fun a b => cmp (f a) (f b)) p)
    have hbelow := ih (mergeBelowTop (fun a b => cmp (f a) (f b)) p)
    rw [← mergeTop_map] at htop
    rw [← mergeBelowTop_map] at hbelow
    obtain ⟨limit, runs⟩ := p
    rcases runs with _ | ⟨x, _ | ⟨y, _ | ⟨z, rest⟩⟩⟩
    · rfl
    · rfl
    · exact htop
    · simp only [Pending.map, collapseAll, List.map_cons, List.length_map] at htop hbelow ⊢
      split
      · exact hbelow
      · exact htop

theorem takeRuns_map (minRun fuel : Nat) (xs : List α) (p : Pending α) :
    takeRuns cmp minRun fuel (xs.map f) (p.map f) =
      (takeRuns (fun a b => cmp (f a) (f b)) minRun fuel xs p).map f := by
  induction fuel generalizing xs p with
  | zero => cases xs <;> rfl
  | succ fuel ih =>
    cases xs with
    | nil => rfl
    | cons a xs =>
      have hsplit := splitRun_map f cmp (a :: xs)
      rw [List.map_cons] at hsplit
      simp only [List.map_cons, takeRuns, hsplit, Prod.map_fst, Prod.map_snd, List.length_map,
        ← List.map_take, ← List.map_drop, foldl_insertSorted_map]
      rw [← ih, ← collapse_map]
      simp only [Pending.map, List.length_map, List.map_cons]

theorem sort_map (xs : List α) :
    sort cmp (xs.map f) = (sort (fun a b => cmp (f a) (f b)) xs).map f := by
  have hruns := takeRuns_map f cmp (minRunLength xs.length) xs.length xs ⟨worthwhile, []⟩
  have hnone : (Pending.mk worthwhile ([] : List (List α))).map f = ⟨worthwhile, []⟩ := rfl
  rw [hnone] at hruns
  unfold sort
  dsimp only
  rw [List.length_map, hruns, List.map_flatten]
  generalize takeRuns _ (minRunLength xs.length) xs.length xs ⟨worthwhile, []⟩ = p
  have hlength : (p.map f).runs.length = p.runs.length := List.length_map _
  rw [hlength, collapseAll_map]
  rfl

theorem sort_congr {cmp cmp' : α → α → Ordering} {xs : List α}
    (h : ∀ a ∈ xs, ∀ b ∈ xs, cmp a b = cmp' a b) : sort cmp xs = sort cmp' xs := by
  have hattach : xs = xs.attach.map Subtype.val := (List.attach_map_subtype_val xs).symm
  rw [hattach, sort_map, sort_map]
  congr 2
  funext a b
  exact h a.1 a.2 b.1 b.2

end TableQuery.Sorting

namespace TableQuery.Rows
variable {α β : Type}

theorem order_congr {keys : List SortKey} {read : α → String → Value} {read' : β → String → Value}
    {a b : α} {a' b' : β} (ha : ∀ key ∈ keys, read a key.column = read' a' key.column)
    (hb : ∀ key ∈ keys, read b key.column = read' b' key.column) :
    order keys read a b = order keys read' a' b' := by
  induction keys with
  | nil => rfl
  | cons key keys ih =>
    obtain ⟨ha, has⟩ := List.forall_mem_cons.mp ha
    obtain ⟨hb, hbs⟩ := List.forall_mem_cons.mp hb
    rw [order, order, ha, hb, ih has hbs]

/-- Images that have the same values in the columns of the order are ordered alike. -/
theorem sort_map {keys : List SortKey} {read : α → String → Value} {read' : β → String → Value}
    {f : α → β} {rows : List α}
    (h : ∀ row ∈ rows, ∀ key ∈ keys, read' (f row) key.column = read row key.column) :
    sort keys read' (rows.map f) = (sort keys read rows).map f := by
  unfold sort
  split
  · rfl
  · rw [Sorting.sort_map]
    exact congrArg (List.map f)
      (Sorting.sort_congr fun a ha b hb => order_congr (h a ha) (h b hb))

end TableQuery.Rows
