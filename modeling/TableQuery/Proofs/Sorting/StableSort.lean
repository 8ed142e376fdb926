import TableQuery.Proofs.Sorting.MergedRuns
import TableQuery.Sorting.Runs

/-! # The sort is stable

Each run of the stack has the elements of a piece of the list in ascending order, equal ones in
the order of the list, and the pieces follow each other. A merge of neighbours keeps this, so it
holds of the one run that is left in the end.
-/
namespace TableQuery.Sorting
variable {α : Type}

/-- Whether neither of two elements comes before the other. -/
def isLevel (cmp : α → α → Ordering) (a b : α) : Bool := cmp a b == .eq

/-- The second list has the elements of the first in ascending order, equal ones as often and in
the same order. -/
structure Sorts (cmp : α → α → Ordering) (xs ys : List α) : Prop where
  ascending : Ascending cmp ys
  level : ∀ a, ys.filter (isLevel cmp a) = xs.filter (isLevel cmp a)

theorem Sorts.of_ascending {cmp : α → α → Ordering} {xs : List α} (h : Ascending cmp xs) :
    Sorts cmp xs xs :=
  ⟨h, fun _ => rfl⟩

theorem Sorts.countP_eq {cmp : α → α → Ordering} {xs ys : List α} (h : Sorts cmp xs ys) (a : α) :
    ys.countP (isLevel cmp a) = xs.countP (isLevel cmp a) := by
  rw [List.countP_eq_length_filter, h.level, List.countP_eq_length_filter]

section
variable {cmp : α → α → Ordering} [Std.TransCmp cmp] {a b x : α} {xs xs' ys ys' : List α}

theorem isLevel_iff : isLevel cmp a b = true ↔ isLess cmp a b = false ∧ isLess cmp b a = false := by
  have hswap : cmp b a = (cmp a b).swap := Std.OrientedCmp.eq_swap
  unfold isLevel isLess
  rw [hswap]
  cases cmp a b <;> decide

theorem not_isLevel_of_isLess (hab : isLevel cmp a b = true) (hx : isLess cmp b x = true) :
    isLevel cmp a x = false := by
  rw [← Bool.not_eq_true, isLevel_iff]
  rintro ⟨hax, -⟩
  have hless := isLess_of_le_of_lt (isLevel_iff.mp hab).2 hx
  rw [hax] at hless
  cases hless

/-- A merge keeps the order of equal elements, those of the first run in front. -/
theorem filter_merged {as bs : List α} (has : Ascending cmp as) (hbs : Ascending cmp bs) (x : α) :
    (merged cmp as bs).filter (isLevel cmp x) =
      as.filter (isLevel cmp x) ++ bs.filter (isLevel cmp x) := by
  induction as generalizing bs with
  | nil => simp
  | cons a as ih =>
    have hfront := fun {bs} => @ih bs has.tail
    clear ih
    induction bs with
    | nil => simp
    | cons b bs ih =>
      cases hless : isLess cmp b a with
      | false =>
        rw [merged_cons_of_not_isLess hless, List.filter_cons, List.filter_cons, hfront hbs]
        split <;> rfl
      | true =>
        rw [merged_cons_of_isLess hless, List.filter_cons, ih hbs.tail,
          List.filter_cons (x := b)]
        split
        · next hlevel =>
          have hnone : (a :: as).filter (isLevel cmp x) = [] := by
            rw [List.filter_eq_nil_iff]
            intro c hc
            rw [Bool.not_eq_true]
            exact not_isLevel_of_isLess hlevel (has.isLess_all hless c hc)
          rw [hnone, List.nil_append, List.nil_append]
        · rfl

theorem ascending_merged {as bs : List α} (has : Ascending cmp as) (hbs : Ascending cmp bs) :
    Ascending cmp (merged cmp as bs) := by
  have hle (xs : List α) : Ascending cmp xs ↔ xs.Pairwise fun a b => (!isLess cmp b a) = true := by
    simp [Ascending]
  rw [hle] at has hbs ⊢
  refine List.pairwise_merge (fun a b c hab hbc => ?_) (fun a b => ?_) as bs has hbs
  · simp only [Bool.not_eq_eq_eq_not, Bool.not_true] at hab hbc ⊢
    exact not_isLess_trans hab hbc
  · cases hba : isLess cmp b a with
    | false => rfl
    | true => simp [not_isLess_of_isLess hba]

theorem Sorts.merged (h : Sorts cmp xs ys) (h' : Sorts cmp xs' ys') :
    Sorts cmp (xs ++ xs') (merged cmp ys ys') where
  ascending := ascending_merged h.ascending h'.ascending
  level a := by
    rw [filter_merged h.ascending h'.ascending, h.level, h'.level, List.filter_append]

theorem Sorts.insert (h : Sorts cmp xs ys) (x : α) :
    Sorts cmp (xs ++ [x]) (Sorting.merged cmp ys [x]) :=
  h.merged (.of_ascending (List.pairwise_singleton _ x))

theorem insertSorted_eq (h : Ascending cmp ys) (x : α) :
    insertSorted cmp ys x = Sorting.merged cmp ys [x] := by
  have hfront := h.holdsInFront_not_isLess x
  obtain ⟨front, rest, htake, hdrop, rfl, hmerged, hhead⟩ :=
    exists_gallop_first h (List.pairwise_singleton _ x) false
  have hrest : Ascending cmp rest := h.sublist (List.sublist_append_right _ _)
  have hbefore : ∀ a ∈ rest, isLess cmp x a = true := by
    cases rest with
    | nil => exact List.forall_mem_nil _
    | cons a rest => exact hrest.isLess_all (hhead a rfl)
  rw [hmerged, merged_first hbefore]
  unfold insertSorted
  dsimp only
  rw [bisect_eq hfront, ← gallop_eq hfront false, htake, hdrop]

theorem Sorts.foldl_insertSorted (h : Sorts cmp xs ys) (more : List α) :
    Sorts cmp (xs ++ more) (more.foldl (insertSorted cmp) ys) := by
  induction more generalizing xs ys with
  | nil => simpa using h
  | cons x more ih =>
    rw [List.foldl_cons, insertSorted_eq h.ascending, List.append_cons]
    exact ih (h.insert x)

theorem exists_climb (cmp : α → α → Ordering) [Std.TransCmp cmp] (previous : α) (xs : List α) :
    ∃ run rest, climb cmp previous xs = (run, rest) ∧ xs = run ++ rest ∧
      Ascending cmp (previous :: run) := by
  induction xs generalizing previous with
  | nil => exact ⟨[], [], rfl, rfl, List.pairwise_singleton _ _⟩
  | cons x xs ih =>
    rw [climb]
    cases hless : isLess cmp x previous with
    | true => exact ⟨[], x :: xs, rfl, rfl, List.pairwise_singleton _ _⟩
    | false =>
      obtain ⟨run, rest, hclimb, rfl, hrun⟩ := ih x
      have hascending : Ascending cmp (previous :: x :: run) :=
        List.pairwise_cons.mpr ⟨hrun.not_isLess_all hless, hrun⟩
      exact ⟨x :: run, rest, by rw [hclimb]; rfl, rfl, hascending⟩

/-- Each element goes in front of a run that is greater than it, as a merge would put it. -/
theorem exists_descend {previous : α} {front run : List α} (h : Sorts cmp front (previous :: run))
    (xs : List α) : ∃ more run' rest, descend cmp previous (previous :: run) xs = (run', rest) ∧
      xs = more ++ rest ∧ Sorts cmp (front ++ more) run' := by
  induction xs generalizing previous front run with
  | nil => exact ⟨[], _, [], rfl, rfl, by simpa using h⟩
  | cons x xs ih =>
    rw [descend]
    cases hless : isLess cmp x previous with
    | false => exact ⟨[], _, x :: xs, rfl, rfl, by simpa using h⟩
    | true =>
      have hinsert := h.insert x
      rw [merged_first (h.ascending.isLess_all hless)] at hinsert
      obtain ⟨more, run', rest, hdescend, rfl, hsorts⟩ := ih hinsert
      exact ⟨x :: more, run', rest, hdescend, rfl, by simpa using hsorts⟩

theorem exists_splitRun (cmp : α → α → Ordering) [Std.TransCmp cmp] (x : α) (xs : List α) :
    ∃ front run rest, splitRun cmp (x :: xs) = (run, rest) ∧ x :: xs = x :: front ++ rest ∧
      Sorts cmp (x :: front) run := by
  cases xs with
  | nil =>
    exact ⟨[], [x], [], rfl, rfl, .of_ascending (List.pairwise_singleton _ x)⟩
  | cons y xs =>
    rw [splitRun]
    cases hless : isLess cmp y x with
    | true =>
      have hfirst : Sorts cmp [x] [x] := .of_ascending (List.pairwise_singleton _ x)
      have hpair := hfirst.insert y
      rw [merged_first (by simpa using hless)] at hpair
      obtain ⟨more, run, rest, hdescend, rfl, hsorts⟩ := exists_descend hpair xs
      exact ⟨y :: more, run, rest, hdescend, rfl, hsorts⟩
    | false =>
      obtain ⟨run, rest, hclimb, rfl, hrun⟩ := exists_climb cmp y xs
      have hascending : Ascending cmp (x :: y :: run) :=
        List.pairwise_cons.mpr ⟨hrun.not_isLess_all hless, hrun⟩
      exact ⟨y :: run, x :: y :: run, rest, by rw [hclimb]; rfl, rfl, .of_ascending hascending⟩

end

/-- A stack whose runs are sorted pieces of a list, the last piece on top. -/
inductive Stacked (cmp : α → α → Ordering) : List α → List (List α) → Prop
  | nil : Stacked cmp [] []
  | cons {done piece run : List α} {runs : List (List α)} :
      Sorts cmp piece run → Stacked cmp done runs → Stacked cmp (done ++ piece) (run :: runs)

section
variable {cmp : α → α → Ordering} [Std.TransCmp cmp] {done : List α} {p : Pending α}

theorem Stacked.mergeTop (h : Stacked cmp done p.runs) :
    Stacked cmp done (mergeTop cmp p).runs := by
  obtain ⟨limit, runs⟩ := p
  rcases h with _ | @⟨done, second, x, runs, hx, h⟩
  · exact .nil
  rcases h with _ | @⟨done, first, y, runs, hy, h⟩
  · exact .cons hx .nil
  simp only [Sorting.mergeTop, mergeRuns_eq limit hy.ascending hx.ascending, List.append_assoc]
  exact .cons (hy.merged hx) h

theorem Stacked.mergeBelowTop (h : Stacked cmp done p.runs) :
    Stacked cmp done (mergeBelowTop cmp p).runs := by
  obtain ⟨limit, runs⟩ := p
  rcases h with _ | ⟨hx, h⟩
  · exact .nil
  · exact .cons hx (Stacked.mergeTop (p := ⟨limit, _⟩) h)

theorem Stacked.collapse (fuel : Nat) (h : Stacked cmp done p.runs) :
    Stacked cmp done (collapse cmp fuel p).runs := by
  induction fuel generalizing p with
  | zero => exact h
  | succ fuel ih =>
    have htop := ih h.mergeTop
    have hbelow := ih h.mergeBelowTop
    unfold Sorting.collapse
    split
    · extract_lets deep
      split
      · split
        · exact hbelow
        · exact htop
      · split
        · exact htop
        · exact h
    · split
      · exact htop
      · exact h
    · exact h

theorem Stacked.collapseAll (fuel : Nat) (h : Stacked cmp done p.runs) :
    Stacked cmp done (collapseAll cmp fuel p).runs := by
  induction fuel generalizing p with
  | zero => exact h
  | succ fuel ih =>
    have htop := ih h.mergeTop
    have hbelow := ih h.mergeBelowTop
    unfold Sorting.collapseAll
    split
    · split
      · exact hbelow
      · exact htop
    · exact htop
    · exact h

theorem Stacked.takeRuns (minRun : Nat) {fuel : Nat} {xs : List α} (h : Stacked cmp done p.runs)
    (hfuel : xs.length ≤ fuel) : Stacked cmp (done ++ xs) (takeRuns cmp minRun fuel xs p).runs := by
  induction fuel generalizing xs done p with
  | zero =>
    obtain rfl := List.length_eq_zero_iff.mp (Nat.le_zero.mp hfuel)
    simpa [Sorting.takeRuns] using h
  | succ fuel ih =>
    cases xs with
    | nil => simpa [Sorting.takeRuns] using h
    | cons x xs =>
      obtain ⟨front, run, rest, hsplit, hxs, hrun⟩ := exists_splitRun cmp x xs
      have hlength := congrArg List.length hxs
      simp only [Sorting.takeRuns, hsplit]
      generalize minRun - run.length = missing
      have hlonger := hrun.foldl_insertSorted (rest.take missing)
      have hpushed : Stacked cmp (done ++ (x :: front ++ rest.take missing))
          (Sorting.collapse cmp (p.runs.length + 1)
            ⟨p.limit, (rest.take missing).foldl (insertSorted cmp) run :: p.runs⟩).runs :=
        Stacked.collapse _ (p := ⟨p.limit, _⟩) (.cons hlonger h)
      have hfewer : (rest.drop missing).length ≤ fuel := by
        simp at hfuel hlength ⊢
        omega
      have hrest := ih hpushed hfewer
      rwa [List.append_assoc, List.append_assoc, List.take_append_drop, ← hxs] at hrest

end

theorem length_collapseAll (cmp : α → α → Ordering) {fuel : Nat} {p : Pending α}
    (h : p.runs.length ≤ fuel + 1) : (collapseAll cmp fuel p).runs.length ≤ 1 := by
  induction fuel generalizing p with
  | zero => exact h
  | succ fuel ih =>
    obtain ⟨limit, _ | ⟨x, _ | ⟨y, _ | ⟨z, runs⟩⟩⟩⟩ := p
    · simp [collapseAll]
    · simp [collapseAll]
    · exact ih (Nat.le_add_left _ _)
    · have h : runs.length + 2 ≤ fuel + 1 := Nat.le_of_succ_le_succ h
      simp only [collapseAll]
      split
      · exact ih h
      · exact ih h

theorem sort_sorts {cmp : α → α → Ordering} [Std.TransCmp cmp] (xs : List α) :
    Sorts cmp xs (sort cmp xs) := by
  have htaken : Stacked cmp ([] ++ xs)
      (takeRuns cmp (minRunLength xs.length) xs.length xs ⟨worthwhile, []⟩).runs :=
    Stacked.takeRuns _ (p := ⟨worthwhile, []⟩) .nil (Nat.le_refl _)
  rw [List.nil_append] at htaken
  unfold sort
  dsimp only
  generalize takeRuns cmp (minRunLength xs.length) xs.length xs ⟨worthwhile, []⟩ = p at htaken ⊢
  have hall := htaken.collapseAll p.runs.length
  have hone := length_collapseAll cmp (Nat.le_succ p.runs.length)
  generalize (collapseAll cmp p.runs.length p).runs = runs at hall hone
  rcases hall with _ | ⟨hrun, _ | _⟩
  · exact .of_ascending List.Pairwise.nil
  · simpa using hrun
  · simp at hone

end TableQuery.Sorting
