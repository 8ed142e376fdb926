import TableQuery.Proofs.Sorting.StableMerge

/-! # Merged runs

Merging from the front and from the back, element by element or galloping, end in the one stable
merge of two ascending runs. So does the merge of two runs of the stack, which leaves out what
stands at its place already and works from the side of the shorter rest.
-/
namespace TableQuery.Sorting
variable {α : Type} {cmp : α → α → Ordering} {a b c : α} {as bs : List α}
variable [Std.TransCmp cmp]

theorem mergeFront_eq (fuel : Nat) (pace : Pace) (limit : Nat) {as bs : List α} (done : List α)
    (has : Ascending cmp as) (hbs : Ascending cmp bs) (hcloses : Closes cmp as bs)
    (hfuel : as.length + bs.length ≤ fuel) :
    (mergeFront cmp fuel pace limit as bs done).2 = done.reverse ++ merged cmp as bs := by
  induction fuel generalizing pace limit as bs done with
  | zero =>
    obtain rfl : as = [] := List.length_eq_zero_iff.mp (by omega)
    simp [mergeFront]
  | succ fuel ih =>
    rcases pace with ⟨winsA, winsB⟩ | _
    · rcases as with _ | ⟨a, as⟩
      · simp [mergeFront]
      rcases bs with _ | ⟨b, bs⟩
      · simp [mergeFront]
      cases hless : isLess cmp b a with
      | true =>
        have hrest := fun pace limit => ih pace limit (b :: done) has hbs.tail
          (hcloses.cut [] [b]) (by simp at hfuel ⊢; omega)
        rw [merged_cons_of_isLess hless]
        rcases bs with _ | ⟨c, bs⟩
        · simp [mergeFront, hless]
        · simp only [mergeFront, hless, ↓reduceIte]
          split
          · simpa using hrest .galloping (limit + 1)
          · simpa using hrest (.single 0 (winsB + 1)) limit
      | false =>
        have hrest := fun pace limit => ih pace limit (a :: done) has.tail hbs
          (hcloses.cut [a] []) (by simp at hfuel ⊢; omega)
        rw [merged_cons_of_not_isLess hless]
        rcases as with _ | ⟨last, _ | ⟨c, as⟩⟩
        · exact absurd (hcloses a rfl b List.mem_cons_self) (by simp [hless])
        · simp [mergeFront, hless, merged_last (hcloses last rfl)]
        · simp only [mergeFront, hless, Bool.false_eq_true, ↓reduceIte]
          split
          · simpa using hrest .galloping (limit + 1)
          · simpa using hrest (.single (winsA + 1) 0) limit
    · rcases bs with _ | ⟨b, bs⟩
      · simp [mergeFront]
      obtain ⟨front, rest, htake, hdrop, rfl, hmerged, hhead⟩ :=
        exists_gallop_first has hbs false
      rw [hmerged]
      simp only [mergeFront, htake, hdrop]
      have hcloses := hcloses.cut _ [b]
      rcases rest with _ | ⟨a, as⟩
      · simp
      rw [merged_cons_of_isLess (hhead a rfl)]
      rcases as with _ | ⟨c, as⟩
      · simp [merged_last (hcloses a rfl)]
      rcases bs with _ | ⟨d, bs⟩
      · simp
      have htail : Ascending cmp (d :: bs) := hbs.tail
      have hsuffix : Ascending cmp (a :: c :: as) := has.sublist (List.sublist_append_right _ _)
      obtain ⟨front', rest', htake', hdrop', hcut, hmerged', hhead'⟩ :=
        exists_gallop_second hsuffix htail false
      rw [hmerged']
      simp only [htake', hdrop']
      rw [hcut] at hcloses htail
      rcases rest' with _ | ⟨e, rest'⟩
      · simp
      rw [merged_cons_of_not_isLess (hhead' e rfl)]
      have hcloses := hcloses.cut [a] _
      rcases as with _ | ⟨k, as⟩
      · simp [merged_last (hcloses c rfl)]
      have hlength := congrArg List.length hcut
      have hrest := fun pace limit => ih pace limit
        (a :: (front'.reverse ++ b :: (front.reverse ++ done))) hsuffix.tail
        (htail.sublist (List.sublist_append_right _ _)) hcloses
        (by simp at hfuel hlength ⊢; omega)
      dsimp only
      split
      · simpa using hrest .galloping (max 1 (limit - 1))
      · simpa using hrest (.single 0 0) (max 1 (limit - 1) + 1)

/-- Merging reversed runs from the back puts the merge in front of what is merged already. -/
theorem mergeBack_eq (fuel : Nat) (pace : Pace) (limit : Nat) {as bs : List α} (done : List α)
    (has : Ascending (opposite cmp) as) (hbs : Ascending (opposite cmp) bs)
    (hcloses : Closes (opposite cmp) bs as) (hfuel : as.length + bs.length ≤ fuel) :
    (mergeBack cmp fuel pace limit as bs done).2 =
      (merged (opposite cmp) bs as).reverse ++ done := by
  induction fuel generalizing pace limit as bs done with
  | zero =>
    obtain rfl : as = [] := List.length_eq_zero_iff.mp (by omega)
    simp [mergeBack]
  | succ fuel ih =>
    rcases pace with ⟨winsA, winsB⟩ | _
    · rcases as with _ | ⟨a, as⟩
      · simp [mergeBack]
      rcases bs with _ | ⟨b, bs⟩
      · simp [mergeBack]
      cases hless : isLess cmp b a with
      | true =>
        have hrest := fun pace limit => ih pace limit (a :: done) has.tail hbs
          (hcloses.cut [] [a]) (by simp at hfuel ⊢; omega)
        have hopposite : isLess (opposite cmp) a b = true := hless
        rw [merged_cons_of_isLess hopposite]
        rcases as with _ | ⟨c, as⟩
        · simp [mergeBack, hless]
        · simp only [mergeBack, hless, ↓reduceIte]
          split
          · simpa using hrest .galloping (limit + 1)
          · simpa using hrest (.single (winsA + 1) 0) limit
      | false =>
        have hrest := fun pace limit => ih pace limit (b :: done) has hbs.tail
          (hcloses.cut [b] []) (by simp at hfuel ⊢; omega)
        have hopposite : isLess (opposite cmp) a b = false := hless
        rw [merged_cons_of_not_isLess hopposite]
        rcases bs with _ | ⟨first, _ | ⟨c, bs⟩⟩
        · exact absurd (hcloses b rfl a List.mem_cons_self) (by simp [hless])
        · simp [mergeBack, hless, merged_last (hcloses first rfl)]
        · simp only [mergeBack, hless, Bool.false_eq_true, ↓reduceIte]
          split
          · simpa using hrest .galloping (limit + 1)
          · simpa using hrest (.single 0 (winsB + 1)) limit
    · rcases bs with _ | ⟨b, bs⟩
      · simp [mergeBack]
      obtain ⟨front, rest, htake, hdrop, rfl, hmerged, hhead⟩ :=
        exists_gallop_second hbs has true
      have htake : (front ++ rest).take (gallop (isLess cmp b) true (front ++ rest)) = front :=
        htake
      have hdrop : (front ++ rest).drop (gallop (isLess cmp b) true (front ++ rest)) = rest :=
        hdrop
      rw [hmerged]
      simp only [mergeBack, htake, hdrop]
      have hcloses := hcloses.cut [] _
      rcases rest with _ | ⟨a, as⟩
      · simp
      have hopposite : isLess (opposite cmp) a b = false := hhead a rfl
      rw [merged_cons_of_not_isLess hopposite]
      have hcloses := hcloses.cut [b] []
      rcases bs with _ | ⟨c, _ | ⟨d, bs⟩⟩
      · simp [gallop, testAt]
      · simp [merged_last (hcloses c rfl)]
      have htail : Ascending (opposite cmp) (c :: d :: bs) := hbs.tail
      have hsuffix : Ascending (opposite cmp) (a :: as) :=
        has.sublist (List.sublist_append_right _ _)
      obtain ⟨front', rest', htake', hdrop', hcut, hmerged', hhead'⟩ :=
        exists_gallop_first htail hsuffix true
      simp only [isLess_opposite] at htake' hdrop' hhead'
      rw [hmerged']
      dsimp only
      simp only [htake', hdrop']
      rw [hcut] at hcloses htail
      have hcloses := hcloses.cut _ [a]
      rcases rest' with _ | ⟨e, rest'⟩
      · simp
      have hopposite : isLess (opposite cmp) a e = true := hhead' e rfl
      rw [merged_cons_of_isLess hopposite]
      rcases rest' with _ | ⟨k, rest'⟩
      · simp [merged_last (hcloses e rfl)]
      rcases as with _ | ⟨l, as⟩
      · simp
      have hlength := congrArg List.length hcut
      have hrest := fun pace limit => ih pace limit
        (a :: (front'.reverse ++ b :: (front.reverse ++ done))) hsuffix.tail
        (htail.sublist (List.sublist_append_right _ _)) hcloses
        (by simp at hfuel hlength ⊢; omega)
      dsimp only
      split
      · simpa using hrest .galloping (max 1 (limit - 1))
      · simpa using hrest (.single 0 0) (max 1 (limit - 1) + 1)

theorem exists_fixed {last : α} (hlast : as.getLast? = some last) (has : Ascending cmp as)
    (hbs : Ascending cmp bs) : ∃ front rear,
      bs.take (bs.length - gallop (fun b => !isLess cmp b last) true bs.reverse) = front ∧
      bs.drop (bs.length - gallop (fun b => !isLess cmp b last) true bs.reverse) = rear ∧
      bs.reverse.drop (gallop (fun b => !isLess cmp b last) true bs.reverse) = front.reverse ∧
      bs = front ++ rear ∧ merged cmp as bs = merged cmp as front ++ rear ∧
      Closes cmp as front := by
  obtain ⟨init, rfl⟩ := List.getLast?_eq_some_iff.mp hlast
  have hback := ascending_reverse_iff.mpr hbs
  have has' := ascending_reverse_iff.mpr has
  rw [List.reverse_append, List.reverse_singleton, List.singleton_append] at has'
  obtain ⟨rear, front, htake, hdrop, hsplit, hmerged, hhead⟩ := exists_gallop_first hback has' true
  simp only [isLess_opposite] at htake hdrop hhead
  have hfront : Ascending (opposite cmp) front :=
    (hsplit ▸ hback).sublist (List.sublist_append_right _ _)
  have hcut : bs = front.reverse ++ rear.reverse := by
    rw [← List.reverse_append, ← hsplit, List.reverse_reverse]
  rw [List.take_reverse] at htake
  refine ⟨front.reverse, rear.reverse, ?_, ?_, by rw [hdrop, List.reverse_reverse], hcut, ?_, ?_⟩
  · rw [← hdrop, List.drop_reverse, List.reverse_reverse]
  · rw [← htake, List.reverse_reverse]
  · have hall := merged_opposite has hbs
    have hfront' : Ascending cmp front.reverse :=
      ascending_reverse_iff.mp (by rwa [List.reverse_reverse])
    have hpart := merged_opposite has hfront'
    rw [List.reverse_append, List.reverse_singleton, List.singleton_append] at hall hpart
    rw [List.reverse_reverse] at hpart
    rw [hmerged, hpart] at hall
    rw [← List.reverse_reverse (merged cmp (init ++ [last]) bs), ← hall, List.reverse_append,
      List.reverse_reverse]
  · intro a ha b hb
    obtain rfl : last = a := by simpa using ha
    cases front with
    | nil => cases hb
    | cons c front => exact hfront.isLess_all (hhead c rfl) b (List.mem_reverse.mp hb)

/-- Merging from the back the runs as they stand, the second of which starts before the first. -/
theorem mergeBack_reverse (limit : Nat) (last : α) (has : Ascending cmp as)
    (hbs : Ascending cmp (b :: bs)) (hbefore : ∀ a ∈ as, isLess cmp b a = true) {fuel : Nat}
    (hfuel : as.length + (b :: bs).length ≤ fuel) :
    (mergeBack cmp fuel (.single 0 0) limit as.reverse (b :: bs).reverse [last]).2 =
      merged cmp as (b :: bs) ++ [last] := by
  have hopens : Closes (opposite cmp) (b :: bs).reverse as.reverse := by
    intro c hc a ha
    obtain rfl : b = c := by simpa using hc
    exact hbefore a (List.mem_reverse.mp ha)
  rw [mergeBack_eq fuel (.single 0 0) limit [last] (ascending_reverse_iff.mpr has)
    (ascending_reverse_iff.mpr hbs) hopens (by simpa using hfuel), merged_opposite has hbs,
    List.reverse_reverse]

theorem mergeRuns_eq (limit : Nat) {first second : List α} (hfirst : Ascending cmp first)
    (hsecond : Ascending cmp second) :
    (mergeRuns cmp limit first second).2 = merged cmp first second := by
  rcases second with _ | ⟨b, second⟩
  · simp [mergeRuns]
  obtain ⟨settled, as, htake, hdrop, rfl, hmerged, hhead⟩ :=
    exists_gallop_first hfirst hsecond false
  have has : Ascending cmp as := hfirst.sublist (List.sublist_append_right _ _)
  rw [hmerged]
  simp only [mergeRuns, htake, hdrop]
  cases hlast : as.getLast? with
  | none =>
    obtain rfl := List.getLast?_eq_none_iff.mp hlast
    simp
  | some last =>
    obtain ⟨front, rear, htake', hdrop', hback, hcut, hmerged', hcloses⟩ :=
      exists_fixed hlast has hsecond
    simp only [hmerged', htake', hdrop', hback]
    rcases as with _ | ⟨a, as⟩
    · cases hlast
    rcases front with _ | ⟨c, front⟩
    · simpa using hcut
    obtain ⟨rfl, -⟩ := List.cons.inj hcut
    have hfront : Ascending cmp (b :: front) :=
      (hcut ▸ hsecond).sublist (List.sublist_append_left _ _)
    split
    · -- the first run is the shorter rest
      rw [merged_cons_of_isLess (hhead a rfl)]
      rcases front with _ | ⟨d, front⟩
      · simp
      rcases as with _ | ⟨c, as⟩
      · have hcloses := hcloses.cut [] [b]
        simp [merged_last (hcloses a rfl)]
      · have hmerge := mergeFront_eq ((a :: c :: as).length + (b :: d :: front).length)
          (.single 0 0) limit [b] has hfront.tail
          (hcloses.cut [] [b]) (by simp)
        simpa using congrArg (fun l => settled ++ (l ++ rear)) hmerge
    · -- the second run is the shorter rest; both are reversed
      have hbefore := has.isLess_all (hhead a rfl)
      obtain ⟨init, hinit⟩ := List.getLast?_eq_some_iff.mp hlast
      rw [hinit] at has hbefore hcloses ⊢
      have hinitial : Ascending cmp init := has.sublist (List.sublist_append_left _ _)
      have hbefore : ∀ c ∈ init, isLess cmp b c = true :=
        fun c hc => hbefore c (List.mem_append_left _ hc)
      have hcut := merged_append cmp init [last] (b :: front) []
        (by simpa [Closes] using hcloses) (by simp)
      rw [List.append_nil, merged_nil_right] at hcut
      rw [hcut, List.reverse_append, List.reverse_singleton, List.singleton_append]
      have hfuel : init.length + (b :: front).length ≤
          (init ++ [last]).length + (b :: front).length := by simp
      have hback := mergeBack_reverse limit last hinitial hfront hbefore hfuel
      have hfirst : front = [] → merged cmp init (b :: front) = b :: init := by
        rintro rfl
        exact merged_first hbefore
      have hinit' := List.reverse_reverse init
      have hfront' := List.reverse_reverse (b :: front)
      generalize init.reverse = ls at *
      generalize (b :: front).reverse = fs at *
      subst hinit'
      rcases fs with _ | ⟨f, _ | ⟨g, fs⟩⟩
      · cases hfront'
      · obtain ⟨rfl, rfl⟩ := List.cons.inj hfront'
        rcases ls with _ | ⟨l, ls⟩
        · simp
        · simp only [hfirst rfl]
          simp
      · rcases ls with _ | ⟨l, ls⟩
        · simp [← hfront']
        · simpa using congrArg (fun l => settled ++ (l ++ rear)) hback

end TableQuery.Sorting
