import TableQuery.Sorting.Keys

/-! # Sorting rearranges

Every step of the sort keeps how often each element occurs: a merge shares out what its
runs hold, a collapse merges runs, and an insertion adds one element. A sorted list is
therefore a permutation of the list it was made from.
-/
namespace TableQuery.Sorting
variable {α : Type} (cmp : α → α → Ordering)

section
variable [BEq α] (x : α)

theorem count_take_drop (n : Nat) (xs : List α) :
    (xs.take n).count x + (xs.drop n).count x = xs.count x := by
  rw [← List.count_append, List.take_append_drop]

grind_pattern count_take_drop => List.count x (List.take n xs)

theorem count_mergeFront [LawfulBEq α] (fuel : Nat) (pace : Pace) (limit : Nat)
    (as bs done : List α) : (mergeFront cmp fuel pace limit as bs done).2.count x =
      done.count x + as.count x + bs.count x := by
  fun_induction mergeFront cmp fuel pace limit as bs done <;> grind

theorem count_mergeBack [LawfulBEq α] (fuel : Nat) (pace : Pace) (limit : Nat)
    (as bs done : List α) : (mergeBack cmp fuel pace limit as bs done).2.count x =
      done.count x + as.count x + bs.count x := by
  fun_induction mergeBack cmp fuel pace limit as bs done <;> grind

theorem count_mergeRuns [LawfulBEq α] (limit : Nat) (first second : List α) :
    (mergeRuns cmp limit first second).2.count x = first.count x + second.count x := by
  cases second with
  | nil => simp [mergeRuns]
  | cons b second =>
    simp only [mergeRuns]
    generalize gallop (fun x => !isLess cmp b x) false first = settled
    have hfirst := count_take_drop x settled first
    generalize first.take settled = front at *
    generalize first.drop settled = as at *
    split
    · simp
    · next last hlast =>
      generalize gallop (fun x => !isLess cmp x last) true (b :: second).reverse = fixed
      have hsecond := count_take_drop x ((b :: second).length - fixed) (b :: second)
      rw [List.drop_reverse]
      generalize (b :: second).drop ((b :: second).length - fixed) = rear at *
      generalize (b :: second).take ((b :: second).length - fixed) = bs at *
      have has : as.reverse.count x = as.count x := List.count_reverse
      have hbs : bs.reverse.count x = bs.count x := List.count_reverse
      split
      · split
        · simp
        · split <;> grind [count_mergeFront]
      · split <;> grind [count_mergeBack]

theorem count_climb (previous : α) (xs : List α) :
    (climb cmp previous xs).1.count x + (climb cmp previous xs).2.count x = xs.count x := by
  fun_induction climb cmp previous xs <;> grind

theorem count_descend (previous : α) (run xs : List α) :
    (descend cmp previous run xs).1.count x + (descend cmp previous run xs).2.count x =
      run.count x + xs.count x := by
  fun_induction descend cmp previous run xs <;> grind

theorem count_splitRun (xs : List α) :
    (splitRun cmp xs).1.count x + (splitRun cmp xs).2.count x = xs.count x := by
  fun_cases splitRun cmp xs <;> grind [count_climb, count_descend]

theorem count_insertSorted (run : List α) (a : α) :
    (insertSorted cmp run a).count x = run.count x + [a].count x := by
  have hrun := count_take_drop x (bisect (fun y => !isLess cmp a y) run) run
  simp only [insertSorted, List.count_append, List.count_cons, List.count_nil]
  omega

theorem count_foldl_insertSorted (xs run : List α) :
    (xs.foldl (insertSorted cmp) run).count x = run.count x + xs.count x := by
  induction xs generalizing run with
  | nil => rfl
  | cons a xs ih =>
    rw [List.foldl_cons, ih, count_insertSorted]
    simp only [List.count_cons, List.count_nil]
    omega

/-- How often an element occurs in the runs that wait. -/
def Pending.count (p : Pending α) : Nat := p.runs.flatten.count x

theorem count_mergeTop [LawfulBEq α] (p : Pending α) : (mergeTop cmp p).count x = p.count x := by
  obtain ⟨limit, runs⟩ := p
  rcases runs with _ | ⟨top, _ | ⟨below, rest⟩⟩
  · rfl
  · rfl
  · have hmerge := count_mergeRuns cmp x limit below top
    simp only [Pending.count, mergeTop, List.flatten_cons, List.count_append, hmerge]
    omega

theorem count_mergeBelowTop [LawfulBEq α] (p : Pending α) :
    (mergeBelowTop cmp p).count x = p.count x := by
  obtain ⟨limit, runs⟩ := p
  cases runs with
  | nil => rfl
  | cons top rest =>
    have hmerge := count_mergeTop cmp x ⟨limit, rest⟩
    simp only [Pending.count, mergeBelowTop, List.flatten_cons, List.count_append] at hmerge ⊢
    omega

theorem count_collapse [LawfulBEq α] (fuel : Nat) (p : Pending α) :
    (collapse cmp fuel p).count x = p.count x := by
  fun_induction collapse cmp fuel p <;> grind [count_mergeTop, count_mergeBelowTop]

theorem count_collapseAll [LawfulBEq α] (fuel : Nat) (p : Pending α) :
    (collapseAll cmp fuel p).count x = p.count x := by
  fun_induction collapseAll cmp fuel p <;> grind [count_mergeTop, count_mergeBelowTop]

theorem count_takeRuns [LawfulBEq α] (minRun fuel : Nat) (xs : List α) (p : Pending α) :
    (takeRuns cmp minRun fuel xs p).count x = p.count x + xs.count x := by
  induction fuel generalizing xs p with
  | zero =>
    cases xs with
    | nil => rfl
    | cons a xs =>
      simp only [takeRuns, Pending.count, List.flatten_cons, List.count_append]
      omega
  | succ fuel ih =>
    cases xs with
    | nil => rfl
    | cons a xs =>
      have hsplit := count_splitRun cmp x (a :: xs)
      generalize hrun : splitRun cmp (a :: xs) = found at hsplit
      obtain ⟨run, rest⟩ := found
      have hrest := count_take_drop x (minRun - run.length) rest
      have hinsert := count_foldl_insertSorted cmp x (rest.take (minRun - run.length)) run
      simp only [takeRuns, hrun, ih, count_collapse]
      simp only [Pending.count, List.flatten_cons, List.count_append] at hsplit ⊢
      omega

end

theorem sort_perm (xs : List α) : (sort cmp xs).Perm xs := by
  classical
  rw [List.perm_iff_count]
  intro x
  have hruns := count_takeRuns cmp x (minRunLength xs.length) xs.length xs ⟨worthwhile, []⟩
  have hempty : (Pending.mk worthwhile ([] : List (List α))).count x = 0 := rfl
  have hall := count_collapseAll cmp x
    (takeRuns cmp (minRunLength xs.length) xs.length xs ⟨worthwhile, []⟩).runs.length
    (takeRuns cmp (minRunLength xs.length) xs.length xs ⟨worthwhile, []⟩)
  rw [hruns, hempty, Nat.zero_add] at hall
  exact hall

end TableQuery.Sorting

namespace TableQuery.Rows
variable {α : Type}

theorem sort_perm (keys : List SortKey) (read : α → String → Value) (rows : List α) :
    (sort keys read rows).Perm rows := by
  unfold sort
  split
  · exact List.Perm.refl rows
  · exact Sorting.sort_perm _ rows

end TableQuery.Rows
