import Mathlib
import TableQuery.Number.Nearest

/-! # The word of a double

A word up to that of infinity, with either sign, is the word of the double it makes.
A double is kept as its sign, exponent and mantissa, and only words that are not
numbers change when these are put together again.
-/
namespace TableQuery.Number
open Float.Model Float.Model.UnpackedFloat

theorem toNat_unpackExponent (b : BitVec 64) :
    (@unpackExponent Format.binary64 b).toNat = b.toNat / 2 ^ 52 % 2 ^ 11 := by
  change (b.extractLsb 62 52).toNat = _
  rw [BitVec.extractLsb_toNat, Nat.shiftRight_eq_div_pow]

theorem toNat_unpackMantissa (b : BitVec 64) :
    (@unpackMantissa Format.binary64 b).toNat = b.toNat % 2 ^ 52 := by
  change (b.extractLsb 51 0).toNat = _
  rw [BitVec.extractLsb_toNat, Nat.shiftRight_zero]

theorem isNaNBits_eq_false {b : BitVec 64} (h : b.toNat % 2 ^ 63 ≤ infiniteWord) :
    @isNaNBits Format.binary64 b = false := by
  have hinf : infiniteWord = 2047 * 2 ^ 52 := rfl
  apply decide_eq_false
  rintro ⟨he, hm⟩
  have hexponent := congrArg BitVec.toNat he
  rw [toNat_unpackExponent] at hexponent
  change b.toNat / 2 ^ 52 % 2 ^ 11 = 2047 at hexponent
  apply hm
  apply BitVec.eq_of_toNat_eq
  rw [toNat_unpackMantissa]
  change b.toNat % 2 ^ 52 = 0
  omega

theorem toBits_ofBits {w : UInt64} (h : w.toNat % 2 ^ 63 ≤ infiniteWord) :
    (Float.ofBits w).toBits = w := by
  apply UInt64.toBitVec_inj.mp
  change UnpackedFloat.pack Format.binary64 (unpack Format.binary64 w.toBitVec) = w.toBitVec
  have hw : w.toBitVec.toNat % 2 ^ 63 ≤ infiniteWord := h
  rw [pack_unpack, isNaNBits_eq_false hw]
  rfl

theorem toNat_ofWord (negative : Bool) {word : Nat} (hw : word ≤ infiniteWord) :
    (ofWord negative word).toBits.toNat = if negative then 2 ^ 63 + word else word := by
  have hinf : infiniteWord = 2047 * 2 ^ 52 := rfl
  have hlt : (if negative then 2 ^ 63 + word else word) < 2 ^ 64 := by split <;> omega
  have hn : (UInt64.ofNat (if negative then 2 ^ 63 + word else word)).toNat =
      if negative then 2 ^ 63 + word else word := Nat.mod_eq_of_lt hlt
  have hbits : (ofWord negative word).toBits =
      UInt64.ofNat (if negative then 2 ^ 63 + word else word) := by
    refine toBits_ofBits ?_
    change (UInt64.ofNat (if negative then 2 ^ 63 + word else word)).toNat % 2 ^ 63 ≤ _
    rw [hn]
    split <;> omega
  rw [hbits, hn]

@[simp] theorem magnitude_ofWord (negative : Bool) {word : Nat} (hw : word ≤ infiniteWord) :
    magnitude (ofWord negative word) = word := by
  have hinf : infiniteWord = 2047 * 2 ^ 52 := rfl
  rw [magnitude, toNat_ofWord negative hw]
  change _ % 2 ^ 63 = word
  split <;> omega

@[simp] theorem isNegative_ofWord (negative : Bool) {word : Nat} (hw : word ≤ infiniteWord) :
    isNegative (ofWord negative word) = negative := by
  have hinf : infiniteWord = 2047 * 2 ^ 52 := rfl
  rw [isNegative, toNat_ofWord negative hw]
  change decide (2 ^ 63 ≤ _) = negative
  cases negative with
  | false => simp only [Bool.false_eq_true, ↓reduceIte, decide_eq_false_iff_not]; omega
  | true => simp only [↓reduceIte, decide_eq_true_eq]; omega

end TableQuery.Number
