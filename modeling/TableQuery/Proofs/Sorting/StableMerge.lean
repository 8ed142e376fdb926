import Mathlib.Data.List.TakeWhile
import TableQuery.Proofs.Sorting.Searches
import TableQuery.Sorting.Merge

/-! # Stable merges

Two ascending runs have one merge in which equal elements of the first run come first. It can be
cut in two wherever the runs are cut so that nothing in front belongs behind. A gallop is such a
cut, and the merge of the reversed runs is the reversed merge.
-/
namespace TableQuery.Sorting
variable {α : Type}

section
variable (cmp : α → α → Ordering)

def Ascending (xs : List α) : Prop := xs.Pairwise fun a b => isLess cmp b a = false

/-- The merge of two runs in which the second gives way to equal elements of the first. -/
def merged (as bs : List α) : List α := as.merge bs fun a b => !isLess cmp b a

/-- Every element of the second run comes before the last one of the first. -/
def Closes (as bs : List α) : Prop := ∀ last ∈ as.getLast?, ∀ b ∈ bs, isLess cmp b last = true

end

variable {cmp : α → α → Ordering} {a b c : α} {as as' bs bs' : List α}

theorem isLess_iff : isLess cmp a b = true ↔ cmp a b = .lt := by
  unfold isLess
  cases cmp a b <;> decide

section
variable [Std.TransCmp cmp]

theorem not_isLess_iff : isLess cmp b a = false ↔ (cmp a b).isLE = true := by
  have hswap : cmp a b = (cmp b a).swap := Std.OrientedCmp.eq_swap
  unfold isLess
  rw [hswap]
  cases cmp b a <;> decide

theorem isLess_of_lt_of_le (hab : isLess cmp a b = true) (hbc : isLess cmp c b = false) :
    isLess cmp a c = true :=
  isLess_iff.mpr (Std.TransCmp.lt_of_lt_of_isLE (isLess_iff.mp hab) (not_isLess_iff.mp hbc))

theorem isLess_of_le_of_lt (hab : isLess cmp b a = false) (hbc : isLess cmp b c = true) :
    isLess cmp a c = true :=
  isLess_iff.mpr (Std.TransCmp.lt_of_isLE_of_lt (not_isLess_iff.mp hab) (isLess_iff.mp hbc))

theorem not_isLess_trans (hab : isLess cmp b a = false) (hbc : isLess cmp c b = false) :
    isLess cmp c a = false :=
  not_isLess_iff.mpr (Std.TransCmp.isLE_trans (not_isLess_iff.mp hab) (not_isLess_iff.mp hbc))

theorem not_isLess_of_isLess (hab : isLess cmp a b = true) : isLess cmp b a = false := by
  rw [← Bool.not_eq_true, isLess_iff]
  exact Std.OrientedCmp.not_lt_of_lt (isLess_iff.mp hab)

theorem not_isLess_self (a : α) : isLess cmp a a = false :=
  not_isLess_iff.mpr Std.ReflCmp.isLE_rfl

theorem Ascending.isLess_all (h : Ascending cmp (a :: as)) (hba : isLess cmp b a = true) :
    ∀ c ∈ a :: as, isLess cmp b c = true :=
  List.forall_mem_cons.mpr
    ⟨hba, fun c hc => isLess_of_lt_of_le hba ((List.pairwise_cons.mp h).1 c hc)⟩

/-- What the first element of a run does not come before, no element of the run does. -/
theorem Ascending.not_isLess_all (h : Ascending cmp (a :: as)) (hab : isLess cmp a b = false) :
    ∀ c ∈ a :: as, isLess cmp c b = false :=
  List.forall_mem_cons.mpr
    ⟨hab, fun c hc => not_isLess_trans hab ((List.pairwise_cons.mp h).1 c hc)⟩

end

@[simp] theorem merged_nil_left (bs : List α) : merged cmp [] bs = bs := List.nil_merge bs

@[simp] theorem merged_nil_right (as : List α) : merged cmp as [] = as := List.merge_right as

theorem merged_cons_of_isLess (h : isLess cmp b a = true) (as bs : List α) :
    merged cmp (a :: as) (b :: bs) = b :: merged cmp (a :: as) bs := by
  unfold merged
  rw [List.cons_merge_cons, if_neg (by simp [h])]

theorem merged_cons_of_not_isLess (h : isLess cmp b a = false) (as bs : List α) :
    merged cmp (a :: as) (b :: bs) = a :: merged cmp as (b :: bs) := by
  unfold merged
  rw [List.cons_merge_cons, if_pos (by simp [h])]

/-- A merge is cut in two where nothing behind the cut comes before anything in front of it. -/
theorem merged_append (cmp : α → α → Ordering) (as as' bs bs' : List α)
    (hbs : ∀ b ∈ bs, ∀ a ∈ as', isLess cmp b a = true)
    (has : ∀ a ∈ as, ∀ b ∈ bs', isLess cmp b a = false) :
    merged cmp (as ++ as') (bs ++ bs') = merged cmp as bs ++ merged cmp as' bs' := by
  induction as generalizing bs with
  | nil =>
    induction bs with
    | nil => simp
    | cons b bs ih =>
      obtain ⟨hb, hbs⟩ := List.forall_mem_cons.mp hbs
      cases as' with
      | nil => simp
      | cons a as' =>
        have hrest := ih hbs
        rw [merged_nil_left] at hrest ⊢
        rw [List.nil_append, List.cons_append, merged_cons_of_isLess (hb a List.mem_cons_self),
          List.cons_append]
        exact congrArg (b :: ·) hrest
  | cons a as ih =>
    obtain ⟨ha, has⟩ := List.forall_mem_cons.mp has
    have hfront := fun {bs} (hbs : ∀ b ∈ bs, ∀ a ∈ as', isLess cmp b a = true) => ih bs hbs has
    clear ih
    induction bs with
    | nil =>
      cases bs' with
      | nil => simp
      | cons b bs' =>
        have hrest := hfront (List.forall_mem_nil _)
        rw [List.nil_append, merged_nil_right] at hrest ⊢
        rw [List.cons_append, merged_cons_of_not_isLess (ha b List.mem_cons_self), hrest,
          List.cons_append]
    | cons b bs ih =>
      obtain ⟨hb, hbs'⟩ := List.forall_mem_cons.mp hbs
      rw [List.cons_append, List.cons_append]
      cases hless : isLess cmp b a with
      | true =>
        rw [merged_cons_of_isLess hless, merged_cons_of_isLess hless, List.cons_append]
        exact congrArg (b :: ·) (ih hbs')
      | false =>
        rw [merged_cons_of_not_isLess hless, merged_cons_of_not_isLess hless, List.cons_append]
        exact congrArg (a :: ·) (hfront hbs)

theorem merged_last (h : ∀ b ∈ bs, isLess cmp b a = true) : merged cmp [a] bs = bs ++ [a] := by
  have hcut := merged_append cmp [] [a] bs [] (by simpa using h) (List.forall_mem_nil _)
  simpa using hcut

theorem merged_first (h : ∀ a ∈ as, isLess cmp b a = true) : merged cmp as [b] = b :: as := by
  have hcut := merged_append cmp [] as [b] [] (by simpa using h) (List.forall_mem_nil _)
  simpa using hcut

theorem Closes.cut (front front' : List α) (h : Closes cmp (front ++ as) (front' ++ bs)) :
    Closes cmp as bs := by
  intro last hlast b hb
  refine h last ?_ b (List.mem_append_right front' hb)
  rw [List.getLast?_append, Option.mem_def.mp hlast]
  rfl

section
variable [Std.TransCmp cmp]

theorem Ascending.holdsInFront_not_isLess (h : Ascending cmp as) (b : α) :
    HoldsInFront (fun a => !isLess cmp b a) as := by
  refine h.imp fun {a c} hac hc => ?_
  simp only [Bool.not_eq_eq_eq_not, Bool.not_true] at hc ⊢
  exact not_isLess_trans hac hc

theorem Ascending.holdsInFront_isLess (h : Ascending cmp bs) (a : α) :
    HoldsInFront (fun b => isLess cmp b a) bs :=
  h.imp fun hbc hc => isLess_of_le_of_lt hbc hc

/-- The elements of the first run up to the place of the next one of the second. -/
theorem exists_gallop_first (has : Ascending cmp as) (hbs : Ascending cmp (b :: bs))
    (reversed : Bool) : ∃ front rest,
      as.take (gallop (fun a => !isLess cmp b a) reversed as) = front ∧
      as.drop (gallop (fun a => !isLess cmp b a) reversed as) = rest ∧ as = front ++ rest ∧
      merged cmp as (b :: bs) = front ++ merged cmp rest (b :: bs) ∧
      ∀ a ∈ rest.head?, isLess cmp b a = true := by
  have hgallop := gallop_eq (has.holdsInFront_not_isLess b) reversed
  refine ⟨_, _, rfl, rfl, (List.take_append_drop _ as).symm, ?_, ?_⟩
  · have hfront : ∀ a ∈ as.takeWhile (fun a => !isLess cmp b a), ∀ c ∈ b :: bs,
        isLess cmp c a = false := by
      intro a ha c hc
      have hba : isLess cmp b a = false := by simpa using List.mem_takeWhile_imp ha
      exact hbs.not_isLess_all hba c hc
    have hcut := merged_append cmp _ (as.dropWhile fun a => !isLess cmp b a) [] (b :: bs)
      (List.forall_mem_nil _) hfront
    rwa [List.takeWhile_append_dropWhile, List.nil_append, merged_nil_right, ← take_frontLength,
      ← drop_frontLength, ← hgallop] at hcut
  · intro a ha
    rw [hgallop, drop_frontLength] at ha
    have hhead := List.head?_dropWhile_not (fun a => !isLess cmp b a) as
    rw [Option.mem_def.mp ha] at hhead
    simpa using hhead

/-- The elements of the second run up to the place of the next one of the first. -/
theorem exists_gallop_second (has : Ascending cmp (a :: as)) (hbs : Ascending cmp bs)
    (reversed : Bool) : ∃ front rest,
      bs.take (gallop (fun b => isLess cmp b a) reversed bs) = front ∧
      bs.drop (gallop (fun b => isLess cmp b a) reversed bs) = rest ∧ bs = front ++ rest ∧
      merged cmp (a :: as) bs = front ++ merged cmp (a :: as) rest ∧
      ∀ b ∈ rest.head?, isLess cmp b a = false := by
  have hgallop := gallop_eq (hbs.holdsInFront_isLess a) reversed
  refine ⟨_, _, rfl, rfl, (List.take_append_drop _ bs).symm, ?_, ?_⟩
  · have hfront : ∀ b ∈ bs.takeWhile (fun b => isLess cmp b a), ∀ c ∈ a :: as,
        isLess cmp b c = true := by
      intro b hb c hc
      have hba := List.mem_takeWhile_imp (p := fun b => isLess cmp b a) hb
      exact has.isLess_all hba c hc
    have hcut := merged_append cmp [] (a :: as) _ (bs.dropWhile fun b => isLess cmp b a) hfront
      (List.forall_mem_nil _)
    rwa [List.takeWhile_append_dropWhile, List.nil_append, merged_nil_left, ← take_frontLength,
      ← drop_frontLength, ← hgallop] at hcut
  · intro b hb
    rw [hgallop, drop_frontLength] at hb
    have hhead := List.head?_dropWhile_not (fun b => isLess cmp b a) bs
    rw [Option.mem_def.mp hb] at hhead
    exact hhead

end

def opposite (cmp : α → α → Ordering) : α → α → Ordering := fun a b => cmp b a

@[simp] theorem isLess_opposite (a b : α) : isLess (opposite cmp) a b = isLess cmp b a := rfl

theorem ascending_reverse_iff : Ascending (opposite cmp) as.reverse ↔ Ascending cmp as :=
  List.pairwise_reverse

section
variable [Std.TransCmp cmp]

instance : Std.TransCmp (opposite cmp) := inferInstanceAs (Std.TransCmp fun a b => cmp b a)

/-- The merge of the reversed runs, the second of which now goes first, is the reversed merge. -/
theorem merged_opposite (has : Ascending cmp as) (hbs : Ascending cmp bs) :
    merged (opposite cmp) bs.reverse as.reverse = (merged cmp as bs).reverse := by
  induction as generalizing bs with
  | nil => simp
  | cons a as ih =>
    have hfirst := fun {bs} => @ih bs has.tail
    clear ih
    induction bs with
    | nil => simp
    | cons b bs ih =>
      cases hless : isLess cmp b a with
      | true =>
        have hcut := merged_append (opposite cmp) bs.reverse [b] (a :: as).reverse []
          (by
            intro c hc d hd
            rw [List.mem_singleton.mp hd, isLess_opposite]
            exact has.isLess_all hless c (List.mem_reverse.mp hc))
          (by simp)
        rw [merged_cons_of_isLess hless, List.reverse_cons (a := b), List.reverse_cons (a := b),
          ← ih hbs.tail]
        simpa using hcut
      | false =>
        have hcut := merged_append (opposite cmp) (b :: bs).reverse [] as.reverse [a] (by simp)
          (by
            intro c hc d hd
            rw [List.mem_singleton.mp hd, isLess_opposite]
            exact hbs.not_isLess_all hless c (List.mem_reverse.mp hc))
        rw [merged_cons_of_not_isLess hless, List.reverse_cons (a := a), List.reverse_cons (a := a),
          ← hfirst hbs]
        simpa using hcut

end

end TableQuery.Sorting
