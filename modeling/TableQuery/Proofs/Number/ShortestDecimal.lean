import TableQuery.Number.Shortest
import TableQuery.Proofs.Number.Rounding

/-! # The shortest decimal reads back

Whichever decimal is chosen for a word rounds to that word: a short one because it was tried, and
the exact one because nothing is lost in it. Zeros at the end of its digits do not matter.
-/
namespace TableQuery.Number
variable {word : Nat}

theorem scaled_ne_zero (h : word ≠ 0) : scaled word ≠ 0 := by
  by_cases hlow : word < 2 ^ 52
  · rwa [scaled_of_lt hlow]
  · rw [scaled_of_le (Nat.not_lt.mp hlow)]
    exact Nat.mul_ne_zero (by omega) (Nat.ne_of_gt (Nat.two_pow_pos _))

theorem scaled_lt (h : word < infiniteWord) {n : Nat} (hn : 2098 ≤ n) : scaled word < 2 ^ n := by
  rw [infiniteWord_eq] at h
  by_cases hlow : word < 2 ^ 52
  · rw [scaled_of_lt hlow]
    exact hlow.trans_le (Nat.pow_le_pow_right (by decide) (by omega))
  · rw [scaled_of_le (Nat.not_lt.mp hlow)]
    have hsignificand : 2 ^ 52 + word % 2 ^ 52 < 2 ^ 53 := by omega
    calc (2 ^ 52 + word % 2 ^ 52) * 2 ^ (word / 2 ^ 52 - 1)
        < 2 ^ 53 * 2 ^ (word / 2 ^ 52 - 1) :=
          Nat.mul_lt_mul_of_pos_right hsignificand (Nat.two_pow_pos _)
      _ = 2 ^ (53 + (word / 2 ^ 52 - 1)) := (Nat.pow_add 2 53 _).symm
      _ ≤ 2 ^ n := Nat.pow_le_pow_right (by decide) (by omega)

theorem ten_pow_le_five_pow {n k : Nat} (h : n ≤ 2 * k) : 10 ^ n ≤ 5 ^ (n + k) := by
  calc 10 ^ n = 5 ^ n * 2 ^ n := Nat.mul_pow 5 2 n
    _ ≤ 5 ^ n * 2 ^ (2 * k) := Nat.mul_le_mul_left _ (Nat.pow_le_pow_right (by decide) h)
    _ = 5 ^ n * (2 ^ 2) ^ k := by rw [Nat.pow_mul]
    _ ≤ 5 ^ n * 5 ^ k := Nat.mul_le_mul_left _ (Nat.pow_le_pow_left (by decide) k)
    _ = 5 ^ (n + k) := (Nat.pow_add 5 n k).symm

theorem two_pow_le_ten_pow {m k : Nat} (h : m ≤ 3 * k) : 2 ^ m ≤ 10 ^ k := by
  calc 2 ^ m ≤ 2 ^ (3 * k) := Nat.pow_le_pow_right (by decide) h
    _ = (2 ^ 3) ^ k := Nat.pow_mul 2 3 k
    _ ≤ 10 ^ k := Nat.pow_le_pow_left (by decide) k

theorem digitCount_scaled (h0 : word ≠ 0) (h : word < infiniteWord) {places : Nat}
    (hplaces : places = 1074) :
    places - 400 < Decimal.digitCount (scaled word * 5 ^ places) ∧
      Decimal.digitCount (scaled word * 5 ^ places) ≤ places + 400 := by
  unfold Decimal.digitCount
  constructor
  · rw [← Nat.not_le, Nat.length_toDigits_le_iff (by decide) (by omega), Nat.not_lt]
    have hsplit : places = places - 400 + 400 := by omega
    calc 10 ^ (places - 400) ≤ 5 ^ (places - 400 + 400) := ten_pow_le_five_pow (by omega)
      _ = 5 ^ places := by rw [← hsplit]
      _ ≤ scaled word * 5 ^ places :=
          Nat.le_mul_of_pos_left _ (Nat.pos_of_ne_zero (scaled_ne_zero h0))
  · rw [Nat.length_toDigits_le_iff (by decide) (by omega)]
    obtain ⟨k, hk⟩ : ∃ k, k = 400 := ⟨_, rfl⟩
    obtain ⟨m, hm⟩ : ∃ m, m = 1024 := ⟨_, rfl⟩
    rw [← hk]
    calc scaled word * 5 ^ places < 2 ^ (m + places) * 5 ^ places :=
          Nat.mul_lt_mul_of_pos_right (scaled_lt h (by omega)) (Nat.pow_pos (by decide))
      _ = 2 ^ m * (2 * 5) ^ places := by rw [Nat.pow_add, Nat.mul_assoc, ← Nat.mul_pow]
      _ ≤ 10 ^ k * 10 ^ places := Nat.mul_le_mul_right _ (two_pow_le_ten_pow (by omega))
      _ = 10 ^ (places + k) := by rw [← Nat.pow_add, Nat.add_comm]

theorem word_exactDecimal (h0 : word ≠ 0) (h : word < infiniteWord) :
    (exactDecimal word).word = word := by
  obtain ⟨places, hplaces⟩ : ∃ places, places = 1074 := ⟨_, rfl⟩
  obtain ⟨hlow, hhigh⟩ := digitCount_scaled h0 h hplaces
  have hnearest := nearest_scaled h
  have hfive : 0 < 5 ^ places := Nat.pow_pos (by decide)
  have hne : scaled word * 5 ^ places ≠ 0 :=
    Nat.mul_ne_zero (scaled_ne_zero h0) (Nat.ne_of_gt hfive)
  have hexact : exactDecimal word = ⟨scaled word * Nat.pow 5 places, -(places : Int)⟩ := by
    have hexponent : (-1074 : Int) = -(places : Int) := by omega
    unfold exactDecimal
    rw [← hplaces, hexponent]
  rw [← hplaces] at hnearest
  rw [hexact]
  unfold Decimal.word
  simp only [Nat.pow_eq] at hnearest ⊢
  rw [if_neg hne, if_neg (by omega), if_neg (by omega), if_neg (by omega), Int.neg_neg,
    Int.toNat_natCast, show 10 = 2 * 5 from rfl, Nat.mul_pow, nearest_mul_mul _ _ hfive, hnearest]

theorem nearer_eq (word : Nat) (low high : Decimal) :
    nearer word low high = low ∨ nearer word low high = high := by
  unfold nearer
  dsimp only
  split
  · exact Or.inl rfl
  split
  · exact Or.inr rfl
  split
  · exact Or.inl rfl
  · exact Or.inr rfl

theorem word_of_tried {low high d : Decimal}
    (h : (match low.word == word, high.word == word with
      | true, true => some (nearer word low high)
      | true, false => some low
      | false, true => some high
      | false, false => none) = some d) : d.word = word := by
  have hnearer := nearer_eq word low high
  generalize nearer word low high = near at h hnearer
  split at h
  · next hlow hhigh =>
    rcases hnearer with rfl | rfl
    · exact Option.some.inj h ▸ beq_iff_eq.mp hlow
    · exact Option.some.inj h ▸ beq_iff_eq.mp hhigh
  · next hlow _ => exact Option.some.inj h ▸ beq_iff_eq.mp hlow
  · next _ hhigh => exact Option.some.inj h ▸ beq_iff_eq.mp hhigh
  · cases h

theorem word_of_decimalOf? {cut drop : Nat} {d : Decimal} (h : decimalOf? word cut drop = some d) :
    d.word = word := by
  unfold decimalOf? at h
  exact word_of_tried h

theorem word_of_shortDecimal? {d : Decimal} (h : shortDecimal? word = some d) : d.word = word := by
  unfold shortDecimal? at h
  obtain ⟨digits, -, hdigits⟩ := List.exists_of_findSome?_eq_some h
  exact word_of_decimalOf? hdigits

namespace Decimal

theorem digits_ne_zero_of_word {d : Decimal} (h : d.word ≠ 0) : d.digits ≠ 0 := by
  intro hzero
  apply h
  unfold Decimal.word
  rw [if_pos hzero]

theorem word_go (fuel : Nat) {d : Decimal} (hd : d.digits ≠ 0) :
    (normalize.go fuel d).word = d.word := by
  induction fuel generalizing d with
  | zero => rfl
  | succ fuel ih =>
    rw [normalize.go]
    split
    · next h =>
      obtain ⟨digits, exponent⟩ := d
      have hten : digits / 10 * 10 = digits := Nat.div_mul_cancel (Nat.dvd_of_mod_eq_zero h.1)
      have hne : digits / 10 ≠ 0 := by
        intro hzero
        rw [hzero, Nat.zero_mul] at hten
        exact hd hten.symm
      rw [ih hne, ← word_mul_ten hne, hten]
    · rfl

theorem word_normalize {d : Decimal} (hd : d.digits ≠ 0) : d.normalize.word = d.word :=
  word_go _ hd

end Decimal

theorem word_shortest (h0 : word ≠ 0) (h : word < infiniteWord) : (shortest word).word = word := by
  have hchosen : ((shortDecimal? word).getD (exactDecimal word)).word = word := by
    cases hshort : shortDecimal? word with
    | none => exact word_exactDecimal h0 h
    | some d => exact word_of_shortDecimal? hshort
  have hne := Decimal.digits_ne_zero_of_word (hchosen.trans_ne h0)
  unfold shortest
  rw [Decimal.word_normalize hne, hchosen]

end TableQuery.Number
