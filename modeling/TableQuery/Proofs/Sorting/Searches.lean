import Mathlib.Data.List.Basic
import TableQuery.Sorting.Search

/-! # Searches find the front of a list

A test that holds of a front part of a list and of nothing behind it is found at the end of that
part by both searches, to whichever side the middle of an interval is rounded. So a list is cut
there into what passes the test and what does not.
-/
namespace TableQuery.Sorting
variable {α : Type} {p : α → Bool} {xs : List α}

/-- Whether a test that holds of an element holds of all elements before it. -/
def HoldsInFront (p : α → Bool) (xs : List α) : Prop := xs.Pairwise fun a b => p b → p a

/-- How many elements at the front of a list pass a test. -/
def frontLength (p : α → Bool) (xs : List α) : Nat := (xs.takeWhile p).length

theorem frontLength_le (p : α → Bool) (xs : List α) : frontLength p xs ≤ xs.length :=
  (List.takeWhile_prefix p).length_le

theorem take_frontLength (p : α → Bool) (xs : List α) :
    xs.take (frontLength p xs) = xs.takeWhile p :=
  (List.prefix_iff_eq_take.mp (List.takeWhile_prefix p)).symm

theorem drop_frontLength (p : α → Bool) (xs : List α) :
    xs.drop (frontLength p xs) = xs.dropWhile p := by
  have hsplit : xs.takeWhile p ++ xs.drop (frontLength p xs) =
      xs.takeWhile p ++ xs.dropWhile p := by
    rw [← take_frontLength, List.take_append_drop, take_frontLength,
      List.takeWhile_append_dropWhile]
  exact List.append_cancel_left hsplit

theorem testAt_eq (h : HoldsInFront p xs) (i : Nat) :
    testAt p xs i = decide (i < frontLength p xs) := by
  unfold frontLength
  induction xs generalizing i with
  | nil => rfl
  | cons x xs ih =>
    obtain ⟨hx, hxs⟩ := List.pairwise_cons.mp h
    cases hp : p x with
    | true =>
      rw [List.takeWhile_cons_of_pos hp]
      cases i with
      | zero => simp [testAt, hp]
      | succ i => simpa [testAt] using ih hxs i
    | false =>
      rw [List.takeWhile_cons_of_neg (by simp [hp])]
      cases i with
      | zero => simp [testAt, hp]
      | succ i =>
        unfold testAt
        rw [List.getElem?_cons_succ]
        cases hi : xs[i]? with
        | none => rfl
        | some y =>
          have hy : p y ≠ true := fun hy =>
            absurd (hx y (List.mem_of_getElem? hi) hy) (by simp [hp])
          simpa using hy

theorem bisectFrom_eq (h : HoldsInFront p xs) (reversed : Bool) {fuel low high : Nat}
    (hlow : low ≤ frontLength p xs) (hhigh : frontLength p xs ≤ high) (hfuel : high ≤ low + fuel) :
    bisectFrom p reversed xs fuel low high = frontLength p xs := by
  induction fuel generalizing low high with
  | zero =>
    rw [bisectFrom]
    omega
  | succ fuel ih =>
    rw [bisectFrom]
    split
    · next hlt =>
      dsimp only
      generalize hmiddle : (if reversed then low + (high - low - 1) / 2
        else low + (high - low) / 2) = middle
      have hbounds : low ≤ middle ∧ middle < high := by
        rw [← hmiddle]
        split <;> omega
      simp only [testAt_eq h, decide_eq_true_eq]
      split
      · exact ih (by omega) hhigh (by omega)
      · exact ih hlow (by omega) (by omega)
    · omega

theorem stride_bounds (h : HoldsInFront p xs) {fuel last offset : Nat}
    (hlast : last < frontLength p xs) (hfuel : xs.length ≤ offset + fuel) :
    (stride p xs fuel last offset).1 < frontLength p xs ∧
      frontLength p xs ≤ min (stride p xs fuel last offset).2 xs.length := by
  have hle := frontLength_le p xs
  induction fuel generalizing last offset with
  | zero =>
    rw [stride]
    exact ⟨hlast, Nat.le_min.mpr ⟨by omega, hle⟩⟩
  | succ fuel ih =>
    rw [stride, testAt_eq h]
    split
    · next hgo =>
      simp only [Bool.and_eq_true, decide_eq_true_eq] at hgo
      exact ih hgo.2 (by omega)
    · next hstop =>
      simp only [Bool.and_eq_true, decide_eq_true_eq, not_and] at hstop
      exact ⟨hlast, Nat.le_min.mpr ⟨by omega, hle⟩⟩

theorem bisect_eq (h : HoldsInFront p xs) : bisect p xs = frontLength p xs :=
  bisectFrom_eq h false (Nat.zero_le _) (frontLength_le p xs) (Nat.le_add_left _ _)

theorem gallop_eq (h : HoldsInFront p xs) (reversed : Bool) :
    gallop p reversed xs = frontLength p xs := by
  unfold gallop
  simp only [testAt_eq h, decide_eq_true_eq]
  split
  · next hpos =>
    obtain ⟨hlast, hoffset⟩ := stride_bounds h hpos (Nat.le_add_left xs.length 1)
    exact bisectFrom_eq h reversed hlast hoffset (by omega)
  · omega

end TableQuery.Sorting
