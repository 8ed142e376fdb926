import TableQuery.Proofs.Number.Whole

/-! # Bounds of numbers

A larger word is a larger number, so the whole part of a number grows with its word. A number
without fractional part is a zero or at least 1 in size, and is then positive exactly when its
integer is.
-/
namespace TableQuery.Number

theorem scaled_of_lt {word : Nat} (h : word < 2 ^ 52) : scaled word = word := by
  have hzero : word / 2 ^ 52 = 0 := Nat.div_eq_of_lt h
  unfold scaled significand
  change (if word < 2 ^ 52 then word else _) * 2 ^ (word / 2 ^ 52 - 1) = word
  rw [if_pos h, hzero, Nat.pow_zero, Nat.mul_one]

theorem scaled_of_le {word : Nat} (h : 2 ^ 52 ≤ word) :
    scaled word = (2 ^ 52 + word % 2 ^ 52) * 2 ^ (word / 2 ^ 52 - 1) := by
  unfold scaled significand
  change (if word < 2 ^ 52 then word else _) * 2 ^ (word / 2 ^ 52 - 1) = _
  rw [if_neg (Nat.not_lt.mpr h)]
  rfl

/-- The next word makes a larger number, also where its exponent is the next one. -/
theorem scaled_le_succ (word : Nat) : scaled word ≤ scaled (word + 1) := by
  by_cases hlow : word + 1 < 2 ^ 52
  · rw [scaled_of_lt hlow, scaled_of_lt (Nat.lt_of_succ_lt hlow)]
    exact Nat.le_succ word
  by_cases hfirst : word < 2 ^ 52
  · obtain rfl : word = 2 ^ 52 - 1 := by omega
    rw [scaled_of_lt hfirst, scaled_of_le (by decide)]
    decide
  rw [scaled_of_le (Nat.not_lt.mp hfirst), scaled_of_le (Nat.not_lt.mp hlow)]
  have hmantissa : word % 2 ^ 52 < 2 ^ 52 := Nat.mod_lt _ (Nat.two_pow_pos 52)
  by_cases hwrap : word % 2 ^ 52 = 2 ^ 52 - 1
  · have hmod : (word + 1) % 2 ^ 52 = 0 := by omega
    have hdiv : (word + 1) / 2 ^ 52 - 1 = word / 2 ^ 52 - 1 + 1 := by omega
    have hdouble : 2 ^ (word / 2 ^ 52 - 1 + 1) = 2 * 2 ^ (word / 2 ^ 52 - 1) := Nat.pow_succ'
    rw [hmod, hdiv, hdouble, ← Nat.mul_assoc]
    exact Nat.mul_le_mul_right _ (by omega)
  · have hmod : (word + 1) % 2 ^ 52 = word % 2 ^ 52 + 1 := by omega
    have hdiv : (word + 1) / 2 ^ 52 = word / 2 ^ 52 := by omega
    rw [hmod, hdiv]
    exact Nat.mul_le_mul_right _ (by omega)

theorem wholePart_mono : Monotone wholePart :=
  fun _ _ h => Nat.div_le_div_right (monotone_nat_of_le_succ scaled_le_succ h)

theorem wholePart_pos {word : Nat} (h : 1023 * 2 ^ 52 ≤ word) : 0 < wholePart word := by
  have hone : wholePart (wholeWord 1 0) = 1 :=
    wholePart_wholeWord (by decide) (by decide) (by decide)
  have hword : wholeWord 1 0 = 1023 * 2 ^ 52 := by decide
  rw [hword] at hone
  have := wholePart_mono h
  omega

theorem nearest_le (n d : Nat) : nearest n d ≤ infiniteWord := Nat.min_le_right _ _

theorem Decimal.word_le (d : Decimal) : d.word ≤ infiniteWord := by
  unfold Decimal.word
  dsimp only
  split
  · exact Nat.zero_le _
  split
  · exact Nat.le_refl _
  split
  · exact Nat.zero_le _
  split
  · exact nearest_le _ _
  · exact nearest_le _ _

theorem magnitude_of_isIntegral {x : Float} (h : isIntegral x = true) :
    magnitude x = 0 ∨ 1023 * 2 ^ 52 ≤ magnitude x := by
  obtain ⟨-, htruncate⟩ := Bool.and_eq_true_iff.mp h
  have hmagnitude := eq_of_beq htruncate
  unfold truncate at hmagnitude
  change magnitude (if magnitude x / 2 ^ 52 < 1023 then _ else _) = _ at hmagnitude
  by_cases hsmall : magnitude x / 2 ^ 52 < 1023
  · rw [if_pos hsmall, magnitude_ofWord _ (Nat.zero_le _)] at hmagnitude
    exact Or.inl hmagnitude.symm
  · right
    omega

theorem isNaN_of_isFinite {x : Float} (h : isFinite x = true) : isNaN x = false :=
  decide_eq_false (Nat.lt_asymm (of_decide_eq_true h))

theorem isNaN_ofWord (negative : Bool) {word : Nat} (h : word ≤ infiniteWord) :
    isNaN (ofWord negative word) = false := by
  unfold isNaN
  rw [magnitude_ofWord _ h]
  exact decide_eq_false (Nat.not_lt.mpr h)

theorem isNaN_truncate {x : Float} (h : isNaN x = false) : isNaN (truncate x) = false := by
  have hword : magnitude x ≤ infiniteWord := Nat.not_lt.mp (of_decide_eq_false h)
  unfold truncate
  dsimp only
  split
  · exact isNaN_ofWord _ (Nat.zero_le _)
  split
  · exact h
  · exact isNaN_ofWord _ ((Nat.sub_le _ _).trans hword)

theorem isNaN_of_ofDecimalText? {cs : List Char} {x : Float} (h : ofDecimalText? cs = some x) :
    isNaN x = false := by
  unfold ofDecimalText? at h
  obtain ⟨d, -, rfl⟩ := Option.map_eq_some_iff.mp h
  exact isNaN_ofWord _ d.word_le

theorem isFinite_ofWord (negative : Bool) {word : Nat} (h : word < infiniteWord) :
    isFinite (ofWord negative word) = true := by
  unfold isFinite
  rw [magnitude_ofWord _ (Nat.le_of_lt h)]
  exact decide_eq_true h

theorem isFinite_ofNat {n : Nat} (h : n < 2 ^ 53) : isFinite (ofNat n) = true := by
  apply isFinite_ofWord
  by_cases hn : n = 0
  · rw [hn, nearest_zero_one]
    decide
  · obtain ⟨k, hk, hl, hu⟩ := exists_highest_bit hn h
    rw [nearest_one hl hu hk]
    exact wholeWord_lt hl hu hk

theorem isNaN_ofNat (n : Nat) : isNaN (ofNat n) = false := isNaN_ofWord _ (nearest_le _ _)

theorem rank_ofNat_nonneg (n : Nat) : 0 ≤ rank (ofNat n) := by
  rw [rank, ofNat, isNegative_ofWord _ (nearest_le n 1)]
  exact Int.natCast_nonneg _

theorem wholePart_ofNat {n : Nat} (h : n < 2 ^ 53) : wholePart (magnitude (ofNat n)) = n := by
  have hint : toInt (ofNat n) = n := toInt_ofInt ⟨n, h⟩
  rw [toInt, ofNat, isNegative_ofWord _ (nearest_le n 1)] at hint
  exact Int.ofNat.inj hint

theorem ofNat_zero : ofNat 0 = ofWord false 0 := by
  unfold ofNat
  rw [nearest_zero_one]

theorem order_zero {x : Float} (h : isNaN x = false) :
    order x (ofNat 0) = compare (rank x) 0 := by
  have hmagnitude : magnitude (ofNat 0) = 0 := by
    rw [ofNat_zero, magnitude_ofWord _ (Nat.zero_le _)]
  have hsign : isNegative (ofNat 0) = false := by
    rw [ofNat_zero, isNegative_ofWord _ (Nat.zero_le _)]
  have hnumber : isNaN (ofNat 0) = false := by
    unfold isNaN
    rw [hmagnitude]
    decide
  have hrank : rank (ofNat 0) = 0 := by
    unfold rank
    rw [hsign, hmagnitude]
    rfl
  unfold order
  rw [h, hnumber, hrank]
  rfl

theorem toInt_pos_iff {x : Float} (h : isIntegral x = true) :
    0 < toInt x ↔ order x (ofNat 0) = .gt := by
  have hnumber := isNaN_of_isFinite (Bool.and_eq_true_iff.mp h).1
  rw [order_zero hnumber, Int.compare_eq_gt]
  have hpositive : 0 < wholePart (magnitude x) ↔ 0 < magnitude x := by
    rcases magnitude_of_isIntegral h with hzero | hlarge
    · rw [hzero, wholePart_zero]
    · have := wholePart_pos hlarge
      omega
  unfold toInt rank
  cases isNegative x with
  | true => simp only [↓reduceIte]; omega
  | false => simp only [Bool.false_eq_true, ↓reduceIte]; omega

theorem isNegative_of_toInt_pos {x : Float} (h : 0 < toInt x) : isNegative x = false := by
  unfold toInt at h
  cases hsign : isNegative x with
  | false => rfl
  | true =>
    rw [hsign, if_pos rfl] at h
    omega

end TableQuery.Number
