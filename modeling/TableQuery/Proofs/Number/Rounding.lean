import TableQuery.Proofs.Number.Bounds

/-! # Rounding to a double

The double nearest to a fraction depends on the value of the fraction only, so an expanded
fraction and a decimal with its zeros moved into the exponent round to the same word. The exact
value of a word rounds to the word itself.
-/
namespace TableQuery.Number

theorem nearest_mul_mul (n d : Nat) {c : Nat} (hc : 0 < c) :
    nearest (n * c) (d * c) = nearest n d := by
  unfold nearest
  generalize Nat.pow 2 1074 = scale
  have hmul : n * c * scale = n * scale * c := Nat.mul_right_comm n c scale
  have hunits : n * c * scale / (d * c) = n * scale / d := by
    rw [hmul, Nat.mul_div_mul_right _ _ hc]
  have hrest : n * c * scale % (d * c) = n * scale % d * c := by
    rw [hmul, Nat.mul_mod_mul_right]
  rw [hunits, hrest]
  dsimp only
  generalize n * scale / d = units
  generalize n * scale % d = rest
  generalize Nat.pow 2 (units.log2 - 52) = step
  have hexcess : 2 * (units % step * (d * c) + rest * c) = 2 * (units % step * d + rest) * c := by
    ring
  have hgap : step * (d * c) = step * d * c := by ring
  rw [hexcess, hgap]
  generalize 2 * (units % step * d + rest) = excess
  have hlt : step * d * c < excess * c ↔ step * d < excess := Nat.mul_lt_mul_right hc
  have heq : excess * c = step * d * c ↔ excess = step * d := Nat.mul_left_inj (Nat.ne_of_gt hc)
  simp only [hlt, Bool.beq_eq_decide_eq, heq]

theorem log2_significand {m : Nat} (hl : 2 ^ 52 ≤ m) (hu : m < 2 ^ 53) (s : Nat) :
    (m * 2 ^ s).log2 - 52 = s := by
  rw [log2_mul_pow hl hu]
  omega

theorem nearest_scaled {word : Nat} (h : word < infiniteWord) :
    nearest (scaled word) (Nat.pow 2 1074) = word := by
  unfold nearest
  generalize 1074 = places
  have hpos : 0 < Nat.pow 2 places := Nat.two_pow_pos places
  generalize Nat.pow 2 places = unit at hpos
  rw [Nat.mul_div_cancel _ hpos, Nat.mul_mod_left]
  have hparts : ∃ m s, scaled word = m * 2 ^ s ∧ (m * 2 ^ s).log2 - 52 = s ∧
      s * 2 ^ 52 + m = word := by
    by_cases hlow : word < 2 ^ 52
    · refine ⟨word, 0, ?_, ?_, by omega⟩
      · rw [scaled_of_lt hlow, Nat.pow_zero, Nat.mul_one]
      · rw [Nat.pow_zero, Nat.mul_one]
        by_cases hzero : word = 0
        · subst hzero
          decide
        · have := (Nat.log2_lt hzero).mpr hlow
          omega
    · have hle : 2 ^ 52 ≤ word := Nat.not_lt.mp hlow
      have hlog := log2_significand (m := 2 ^ 52 + word % 2 ^ 52) (by omega) (by omega)
        (word / 2 ^ 52 - 1)
      exact ⟨2 ^ 52 + word % 2 ^ 52, word / 2 ^ 52 - 1, scaled_of_le hle, hlog, by omega⟩
  obtain ⟨m, s, hscaled, hlog, hword⟩ := hparts
  have hstep : 0 < 2 ^ s := Nat.two_pow_pos s
  have hgap : 0 < 2 ^ s * unit := Nat.mul_pos hstep hpos
  rw [hscaled]
  simp only [hlog, Nat.pow_eq, Nat.mul_div_cancel _ hstep, Nat.mul_mod_left, hword]
  have hgap' : ¬ 2 ^ s * unit = 0 := Nat.ne_of_gt hgap
  simp [Ne.symm hgap', Nat.le_of_lt h]

namespace Decimal

theorem digitCount_mul_ten {n : Nat} (hn : n ≠ 0) : digitCount (n * 10) = digitCount n + 1 := by
  unfold digitCount
  rw [Nat.toDigits_of_base_le (by decide) (by omega), Nat.mul_div_cancel _ (by decide),
    List.length_append, List.length_singleton]

theorem word_mul_ten {n : Nat} (hn : n ≠ 0) (e : Int) :
    (Decimal.mk (n * 10) e).word = (Decimal.mk n (e + 1)).word := by
  have hne : n * 10 ≠ 0 := by omega
  have htop : ((digitCount (n * 10) : Nat) : Int) + e = digitCount n + (e + 1) := by
    rw [digitCount_mul_ten hn]
    omega
  unfold word
  simp only [hn, hne, if_false, htop]
  generalize (digitCount n : Int) + (e + 1) = top
  split
  · rfl
  split
  · rfl
  simp only [Nat.pow_eq]
  rcases Int.lt_trichotomy e (-1) with hlow | rfl | hhigh
  · have hplaces : (-e).toNat = (-(e + 1)).toNat + 1 := by omega
    rw [if_neg (by omega), if_neg (by omega), hplaces, Nat.pow_succ,
      nearest_mul_mul _ _ (by decide)]
  · have hone : 10 ^ (-(-1 : Int)).toNat = 1 * 10 := rfl
    have hzero : (-1 + 1 : Int).toNat = 0 := rfl
    rw [if_neg (by decide), if_pos (by decide), hone, hzero, nearest_mul_mul _ _ (by decide),
      Nat.pow_zero, Nat.mul_one]
  · have hplaces : (e + 1).toNat = e.toNat + 1 := by omega
    rw [if_pos (by omega), if_pos (by omega), hplaces, Nat.pow_succ', Nat.mul_assoc]

theorem word_mul_pow {n : Nat} (hn : n ≠ 0) (k : Nat) (e : Int) :
    (Decimal.mk (n * 10 ^ k) e).word = (Decimal.mk n (e + k)).word := by
  induction k generalizing e with
  | zero => simp
  | succ k ih =>
    have hpow : n * 10 ^ k ≠ 0 := Nat.mul_ne_zero hn (Nat.ne_of_gt (Nat.pow_pos (by decide)))
    rw [Nat.pow_succ, ← Nat.mul_assoc, word_mul_ten hpow, ih]
    congr 2
    omega

end Decimal
end TableQuery.Number
