import TableQuery.Proofs.Number.Word
import TableQuery.Proofs.Text.Trim
import TableQuery.Number.Notation

/-! # Whole numbers as doubles

A whole number of at most 53 bits is a double without rounding: its word is made of
the place of its highest bit and of the number shifted to 53 bits. Such a double is
its own whole part, and the digits of the number read back to it.
-/
namespace TableQuery.Number

abbrev ExactInt := { n : Int // n.natAbs < 2 ^ 53 }

/-- The word of a positive number whose highest bit stands at place `k`. -/
def wholeWord (n k : Nat) : Nat := (k + 1022) * 2 ^ 52 + n * 2 ^ (52 - k)

theorem infiniteWord_eq : infiniteWord = 2047 * 2 ^ 52 := rfl

section
variable {n k : Nat}

theorem shifted_bounds (hl : 2 ^ k ≤ n) (hu : n < 2 ^ (k + 1)) (hk : k ≤ 52) :
    2 ^ 52 ≤ n * 2 ^ (52 - k) ∧ n * 2 ^ (52 - k) < 2 ^ 53 := by
  have hlow := Nat.mul_le_mul_right (2 ^ (52 - k)) hl
  have hhigh := Nat.mul_lt_mul_of_pos_right hu (Nat.two_pow_pos (52 - k))
  rw [← Nat.pow_add] at hlow hhigh
  rw [show k + (52 - k) = 52 by omega] at hlow
  rw [show k + 1 + (52 - k) = 53 by omega] at hhigh
  exact ⟨hlow, hhigh⟩

theorem mul_pow_split (n : Nat) {p s t : Nat} (h : p = s + t) :
    n * 2 ^ p = n * 2 ^ s * 2 ^ t := by
  rw [h, Nat.pow_add, Nat.mul_assoc]

theorem wholeWord_lt (hl : 2 ^ k ≤ n) (hu : n < 2 ^ (k + 1)) (hk : k ≤ 52) :
    wholeWord n k < infiniteWord := by
  have hb := shifted_bounds hl hu hk
  rw [wholeWord, infiniteWord_eq]
  omega

theorem log2_eq_of_bounds (hl : 2 ^ k ≤ n) (hu : n < 2 ^ (k + 1)) : n.log2 = k := by
  have hn : n ≠ 0 := by
    have := Nat.two_pow_pos k
    omega
  exact (Nat.log2_eq_iff hn).mpr ⟨hl, hu⟩

theorem log2_mul_pow (hl : 2 ^ k ≤ n) (hu : n < 2 ^ (k + 1)) (s : Nat) :
    (n * 2 ^ s).log2 = k + s := by
  apply log2_eq_of_bounds
  · rw [Nat.pow_add]
    exact Nat.mul_le_mul_right _ hl
  · rw [show k + s + 1 = k + 1 + s by omega, Nat.pow_add]
    exact Nat.mul_lt_mul_of_pos_right hu (Nat.two_pow_pos s)

theorem nearest_one (hl : 2 ^ k ≤ n) (hu : n < 2 ^ (k + 1)) (hk : k ≤ 52) :
    nearest n 1 = wholeWord n k := by
  -- the place of the unit is named so that its power is never computed
  have hplaces : 1074 = 52 - k + (k + 1022) := by omega
  obtain ⟨unit, hsum, hscale⟩ : ∃ unit, unit = 52 - k + (k + 1022) ∧
      Nat.pow 2 1074 = Nat.pow 2 unit := ⟨1074, hplaces, rfl⟩
  have hstep : k + unit - 52 = k + 1022 := by rw [hsum]; omega
  have hpos := Nat.two_pow_pos (k + 1022)
  have hlt := wholeWord_lt hl hu hk
  rw [nearest, hscale]
  have hlog : (n * 2 ^ unit).log2 = k + unit := log2_mul_pow hl hu unit
  have hsplit : n * 2 ^ unit = n * 2 ^ (52 - k) * 2 ^ (k + 1022) := mul_pow_split n hsum
  simp only [Nat.div_one, Nat.mod_one, Nat.mul_one, Nat.add_zero, hlog, hstep, Nat.pow_eq]
  rw [hsplit, Nat.mul_mod_left, Nat.mul_div_cancel _ hpos, Nat.mul_zero,
    decide_eq_false (Nat.not_lt_zero _), beq_eq_false_iff_ne.mpr (Nat.ne_of_lt hpos)]
  exact Nat.min_eq_left (Nat.le_of_lt hlt)

theorem scaled_wholeWord (hl : 2 ^ k ≤ n) (hu : n < 2 ^ (k + 1)) (hk : k ≤ 52) :
    scaled (wholeWord n k) = n * Nat.pow 2 1074 := by
  obtain ⟨hlow, hhigh⟩ := shifted_bounds hl hu hk
  have hword : wholeWord n k = (k + 1023) * 2 ^ 52 + (n * 2 ^ (52 - k) - 2 ^ 52) := by
    rw [wholeWord]
    omega
  have hdiv : wholeWord n k / 2 ^ 52 = k + 1023 := by omega
  have hmod : wholeWord n k % 2 ^ 52 = n * 2 ^ (52 - k) - 2 ^ 52 := by omega
  have hsig : significand (wholeWord n k) = n * 2 ^ (52 - k) := by
    simp only [significand, Nat.pow_eq]
    rw [if_neg (by omega), hmod]
    omega
  generalize hunit : 1074 = unit
  have hsum : unit = 52 - k + (k + 1022) := by omega
  have hsplit : n * 2 ^ unit = n * 2 ^ (52 - k) * 2 ^ (k + 1022) := mul_pow_split n hsum
  simp only [scaled, hsig, Nat.pow_eq, hsplit, hdiv]
  rfl

end

theorem wholePart_wholeWord {n k : Nat} (hl : 2 ^ k ≤ n) (hu : n < 2 ^ (k + 1)) (hk : k ≤ 52) :
    wholePart (wholeWord n k) = n := by
  rw [wholePart, scaled_wholeWord hl hu hk]
  generalize 1074 = unit
  exact Nat.mul_div_cancel n (Nat.two_pow_pos unit)

theorem wholeWord_mod {n k : Nat} (hk : k ≤ 52) : wholeWord n k % 2 ^ (52 - k) = 0 := by
  have hsplit : 2 ^ 52 = 2 ^ k * 2 ^ (52 - k) := by
    rw [← Nat.pow_add]
    congr 1
    omega
  apply Nat.mod_eq_zero_of_dvd
  refine Nat.dvd_add ?_ (Nat.dvd_mul_left _ _)
  rw [hsplit, ← Nat.mul_assoc]
  exact Nat.dvd_mul_left _ _

theorem truncate_wholeWord {n k : Nat} (hl : 2 ^ k ≤ n) (hu : n < 2 ^ (k + 1)) (hk : k ≤ 52)
    (negative : Bool) :
    truncate (ofWord negative (wholeWord n k)) = ofWord negative (wholeWord n k) := by
  have hlt := wholeWord_lt hl hu hk
  have hexponent : wholeWord n k / 2 ^ 52 = k + 1023 := by
    have hb := shifted_bounds hl hu hk
    rw [wholeWord]
    omega
  simp only [truncate, magnitude_ofWord negative (Nat.le_of_lt hlt),
    isNegative_ofWord negative (Nat.le_of_lt hlt), Nat.pow_eq, hexponent]
  rw [if_neg (by omega)]
  split
  · rfl
  · rw [show 1075 - (k + 1023) = 52 - k by omega, wholeWord_mod hk, Nat.sub_zero]

def ofInt (n : Int) : Float := ofWord (decide (n < 0)) (nearest n.natAbs 1)

theorem nearest_zero_one : nearest 0 1 = 0 := by
  rw [nearest]
  generalize 1074 = unit
  simp

theorem wholePart_zero : wholePart 0 = 0 := by
  rw [wholePart]
  generalize 1074 = unit
  simp [scaled, significand]

theorem exists_highest_bit {n : Nat} (hn : n ≠ 0) (hlt : n < 2 ^ 53) :
    ∃ k, k ≤ 52 ∧ 2 ^ k ≤ n ∧ n < 2 ^ (k + 1) :=
  ⟨n.log2, by have := (Nat.log2_lt hn).mpr hlt; omega, Nat.log2_self_le hn, Nat.lt_log2_self⟩

theorem toInt_ofInt (n : ExactInt) : toInt (ofInt n) = n := by
  obtain ⟨n, hlt⟩ := n
  by_cases hn : n.natAbs = 0
  · obtain rfl : n = 0 := Int.natAbs_eq_zero.mp hn
    have hw : 0 ≤ infiniteWord := Nat.zero_le _
    rw [ofInt, Int.natAbs_zero, nearest_zero_one, toInt, isNegative_ofWord _ hw,
      magnitude_ofWord _ hw, wholePart_zero]
    rfl
  · obtain ⟨k, hk, hl, hu⟩ := exists_highest_bit hn hlt
    have hw := Nat.le_of_lt (wholeWord_lt hl hu hk)
    rw [toInt, ofInt, nearest_one hl hu hk, isNegative_ofWord _ hw, magnitude_ofWord _ hw,
      wholePart_wholeWord hl hu hk]
    simp only [decide_eq_true_eq]
    split <;> omega

theorem truncate_ofInt (n : ExactInt) : truncate (ofInt n) = ofInt n := by
  obtain ⟨n, hlt⟩ := n
  by_cases hn : n.natAbs = 0
  · obtain rfl : n = 0 := Int.natAbs_eq_zero.mp hn
    have hw : 0 ≤ infiniteWord := Nat.zero_le _
    rw [ofInt, Int.natAbs_zero, nearest_zero_one, truncate, magnitude_ofWord _ hw,
      isNegative_ofWord _ hw]
    rfl
  · obtain ⟨k, hk, hl, hu⟩ := exists_highest_bit hn hlt
    rw [ofInt, nearest_one hl hu hk, truncate_wholeWord hl hu hk]

/-- The digits of a whole number, behind its sign if it is negative. -/
def intChars (n : Int) : List Char :=
  if n < 0 then '-' :: Nat.toDigits 10 n.natAbs else Nat.toDigits 10 n.natAbs

theorem digitsValue_toDigits (n : Nat) : digitsValue (Nat.toDigits 10 n) = n := by
  have h := Nat.ofDigitChars_ten_toDigits (n := n)
  simp only [Nat.ofDigitChars, Nat.mul_comm] at h
  exact h

theorem isDigit_toDigits {n : Nat} {c : Char} (h : c ∈ Nat.toDigits 10 n) : c.isDigit = true :=
  Nat.isDigit_of_mem_toDigits (by decide) (by decide) h

theorem intChars_ne_nil (n : Int) : intChars n ≠ [] := by
  unfold intChars
  split
  · simp
  · exact Nat.toDigits_ne_nil

theorem toNat_of_mem_intChars {n : Int} {c : Char} (h : c ∈ intChars n) :
    48 ≤ c.toNat ∧ c.toNat ≤ 57 ∨ c.toNat = 45 := by
  have digit (hd : c ∈ Nat.toDigits 10 n.natAbs) : 48 ≤ c.toNat ∧ c.toNat ≤ 57 :=
    Char.isDigit_iff_toNat.mp (isDigit_toDigits hd)
  unfold intChars at h
  split at h
  · rcases List.mem_cons.mp h with rfl | h
    · exact Or.inr rfl
    · exact Or.inl (digit h)
  · exact Or.inl (digit h)

theorem splitPoint_digits {cs : List Char} (h : ∀ c ∈ cs, c.isDigit = true) :
    splitPoint cs = (cs, none, []) := by
  have hnone : ∀ c ∈ ([] : List Char).head?, c.isDigit = false := by simp
  have hspan := Text.span_append h hnone
  rw [List.append_nil] at hspan
  rw [splitPoint, hspan.1, hspan.2]

theorem unsigned?_digits {cs : List Char} (hn : cs ≠ []) (h : ∀ c ∈ cs, c.isDigit = true) :
    unsigned? cs = some ⟨digitsValue cs, 0⟩ := by
  have he : cs.isEmpty = false := by simpa using hn
  simp [unsigned?, splitPoint_digits h, he, exponent?]

theorem splitSign_of_isDigit {c : Char} (hc : c.isDigit = true) (cs : List Char) :
    splitSign (c :: cs) = (false, c :: cs) := by
  unfold splitSign
  split
  · next he =>
    cases (List.cons.inj he).1
    cases hc
  · next he =>
    cases (List.cons.inj he).1
    cases hc
  · rfl

theorem exists_cons_toDigits (n : Nat) :
    ∃ c cs, Nat.toDigits 10 n = c :: cs ∧ c.isDigit = true := by
  obtain ⟨c, cs, hdigits⟩ := List.exists_cons_of_ne_nil (Nat.toDigits_ne_nil (b := 10) (n := n))
  refine ⟨c, cs, hdigits, isDigit_toDigits (n := n) ?_⟩
  rw [hdigits]
  exact List.mem_cons_self

theorem splitSign_intChars (n : Int) :
    splitSign (intChars n) = (decide (n < 0), Nat.toDigits 10 n.natAbs) := by
  unfold intChars
  by_cases hn : n < 0
  · rw [if_pos hn, decide_eq_true hn]
    rfl
  · obtain ⟨c, cs, hdigits, hc⟩ := exists_cons_toDigits n.natAbs
    rw [if_neg hn, decide_eq_false hn, hdigits, splitSign_of_isDigit hc]

theorem word_whole {n : Nat} (hlt : n < 2 ^ 53) : (Decimal.mk n 0).word = nearest n 1 := by
  unfold Decimal.word
  by_cases hn : n = 0
  · rw [if_pos hn, hn, nearest_zero_one]
  · have hcount : Decimal.digitCount n ≤ 16 :=
      (Nat.length_toDigits_le_iff (by decide) (by decide)).mpr (by omega)
    rw [if_neg hn, if_neg (by simp only; omega), if_neg (by simp only; omega), if_pos (by simp)]
    simp

theorem ofDecimalText?_intChars (n : ExactInt) : ofDecimalText? (intChars n) = some (ofInt n) := by
  obtain ⟨n, hlt⟩ := n
  rw [ofDecimalText?, splitSign_intChars]
  simp only [unsigned?_digits Nat.toDigits_ne_nil fun c hc => isDigit_toDigits hc,
    digitsValue_toDigits, Option.map_some, Decimal.toFloat, word_whole hlt, ofInt]

theorem ofText_digits {s : String} (hs : s ≠ "") (h : ∀ c ∈ s.toList, c.isDigit = true) :
    ofText s = Decimal.toFloat false ⟨digitsValue s.toList, 0⟩ := by
  have hne : s.toList ≠ [] := fun hnil => hs (String.toList_eq_nil_iff.mp hnil)
  have hblank : ∀ c ∈ s.toList, Text.isBlank c = false := by
    intro c hc
    have hcode : 48 ≤ c.toNat ∧ c.toNat ≤ 57 := Char.isDigit_iff_toNat.mp (h c hc)
    simp only [Text.isBlank, Bool.or_eq_false_iff, Bool.and_eq_false_iff, decide_eq_false_iff_not,
      beq_eq_false_iff_ne]
    omega
  unfold ofText
  rw [(Text.isTrimmed_of_forall hblank).trim_eq]
  generalize s.toList = cs at h hne
  have hsecond {c d : Char} {rest : List Char} (hcs : cs = c :: d :: rest) : d.isDigit = true :=
    h d (by simp [hcs])
  have hsign : splitSign cs = (false, cs) := by
    obtain ⟨c, rest, rfl⟩ := List.exists_cons_of_ne_nil hne
    exact splitSign_of_isDigit (h c List.mem_cons_self) rest
  have hread : ofDecimalText? cs = some (Decimal.toFloat false ⟨digitsValue cs, 0⟩) := by
    simp only [ofDecimalText?, hsign, unsigned?_digits hne h, Option.map_some]
  have hword : cs ≠ "Infinity".toList := by
    rintro rfl
    cases h 'I' (by decide)
  dsimp only
  split
  case h_1 => exact absurd rfl hne
  case h_8 =>
    rw [hsign]
    dsimp only
    rw [if_neg (fun hbeq => hword (eq_of_beq hbeq)), hread, Option.getD_some]
  all_goals cases hsecond rfl

end TableQuery.Number
