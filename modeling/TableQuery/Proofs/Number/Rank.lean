import TableQuery.Data.Json.Printer

/-! # The rank of a double

Two numbers are equal when they have one magnitude and, unless they are zeros, one sign. So
equal numbers are written alike. What is a number is ordered by its rank.
-/
namespace TableQuery.Number

theorem same_iff {x y : Float} : same x y = true ↔
    isNaN x = false ∧ isNaN y = false ∧ magnitude x = magnitude y ∧
      (magnitude x = 0 ∨ isNegative x = isNegative y) := by
  unfold same rank
  -- the magnitudes are named so that no power of two is computed
  generalize magnitude x = m
  generalize magnitude y = n
  cases isNaN x <;> cases isNaN y <;> cases isNegative x <;> cases isNegative y <;> simp <;> omega

theorem textChars_of_same {x y : Float} (h : same x y = true) : textChars x = textChars y := by
  obtain ⟨hx, hy, hword, hsign⟩ := same_iff.mp h
  have hminus : (isNegative x && magnitude y != 0) = (isNegative y && magnitude y != 0) := by
    rcases hsign with hzero | hsign
    · rw [← hword, hzero, bne_self_eq_false, Bool.and_false, Bool.and_false]
    · rw [hsign]
  unfold textChars
  rw [hx, hy, hword]
  dsimp only
  rw [hminus]

theorem text_of_same {x y : Float} (h : same x y = true) : text x = text y :=
  congrArg String.ofList (textChars_of_same h)

theorem numberChars_of_same {x y : Float} (h : same x y = true) :
    Json.numberChars x = Json.numberChars y := by
  unfold Json.numberChars isFinite
  rw [textChars_of_same h, (same_iff.mp h).2.2.1]

theorem order_swap (x y : Float) : order y x = (order x y).swap := by
  have hrank : compare (rank y) (rank x) = (compare (rank x) (rank y)).swap :=
    Std.OrientedCmp.eq_swap
  unfold order
  rw [Bool.or_comm, hrank]
  split <;> rfl

section
variable {x y : Float} (hx : isNaN x = false) (hy : isNaN y = false)
include hx hy

theorem order_eq : order x y = compare (rank x) (rank y) := by
  unfold order
  rw [hx, hy, Bool.or_false, if_neg Bool.false_ne_true]

theorem isLE_order_iff : (order x y).isLE = true ↔ rank x ≤ rank y := by
  rw [order_eq hx hy]
  exact Std.isLE_compare

theorem same_of_rank_eq (h : rank x = rank y) : same x y = true := by
  simp [same, hx, hy, h]

end

end TableQuery.Number
