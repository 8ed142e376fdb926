import Mathlib.Data.List.Perm.Basic
import TableQuery.Text.Unit

/-! # The order of texts by their units

The units of a text determine its characters: a unit outside the surrogates is a character, and
a pair of surrogates is one. So texts are totally ordered by their units, and a list of texts is
sorted in one way only.
-/
namespace TableQuery.Text

theorem charsOfUnits_charUnits (c : Char) (rest : List Nat) :
    charsOfUnits (charUnits c ++ rest) = c :: charsOfUnits rest := by
  have hvalid : c.toNat < 0xD800 ∨ 0xDFFF < c.toNat ∧ c.toNat < 0x110000 := c.valid
  unfold charUnits
  by_cases hsmall : c.toNat < 0x10000
  · rw [if_pos hsmall, List.singleton_append, charsOfUnits.eq_def]
    dsimp only
    rw [if_neg (by omega), Char.ofNat_toNat]
  · rw [if_neg hsmall, List.cons_append, List.singleton_append, charsOfUnits.eq_def]
    dsimp only
    rw [if_pos (by omega), if_pos (by omega)]
    have hjoined : 0x10000 + (0xD800 + (c.toNat - 0x10000) / 0x400 - 0xD800) * 0x400 +
        (0xDC00 + (c.toNat - 0x10000) % 0x400 - 0xDC00) = c.toNat := by
      omega
    rw [hjoined, Char.ofNat_toNat]

theorem charsOfUnits_units (s : String) : charsOfUnits (units s) = s.toList := by
  unfold units
  induction s.toList with
  | nil => rfl
  | cons c cs ih => rw [List.flatMap_cons, charsOfUnits_charUnits, ih]

theorem units_injective {a b : String} (h : units a = units b) : a = b := by
  apply String.toList_inj.mp
  rw [← charsOfUnits_units, ← charsOfUnits_units, h]

instance : Std.TransCmp order := inferInstanceAs (Std.TransCmp (compareOn units))

instance : Std.LawfulEqCmp order where
  compare_self := Std.ReflCmp.compare_self
  eq_of_compare h := units_injective (Std.LawfulEqCmp.eq_of_compare h)

theorem compare_units_iff {us vs : List Nat} : compare us vs = .lt ↔ us < vs := by
  induction us generalizing vs with
  | nil => cases vs <;> simp
  | cons u us ih =>
    cases vs with
    | nil => simp
    | cons v vs =>
      rw [List.compare_cons_cons, Ordering.then_eq_lt, ih, Nat.compare_eq_lt, Nat.compare_eq_eq,
        List.cons_lt_cons_iff]

theorem order_eq_lt_iff {a b : String} : order a b = .lt ↔ units a < units b := compare_units_iff

theorem order_isLE_total (a b : String) :
    ((order a b).isLE || (order b a).isLE) = true := by
  have hswap : order a b = (order b a).swap := Std.OrientedCmp.eq_swap
  rw [hswap]
  cases order b a <;> rfl

theorem pairwise_sorted (texts : List String) :
    (sorted texts).Pairwise fun a b => (order a b).isLE = true :=
  List.pairwise_mergeSort (fun _ _ _ => Std.TransCmp.isLE_trans)
    (fun _ _ => order_isLE_total _ _) _

theorem perm_sorted (texts : List String) : (sorted texts).Perm texts := List.mergeSort_perm _ _

theorem sorted_eq_of_perm {a b : List String} (h : a.Perm b) : sorted a = sorted b := by
  refine List.Perm.eq_of_pairwise ?_ (pairwise_sorted a) (pairwise_sorted b)
    ((perm_sorted a).trans (h.trans (perm_sorted b).symm))
  exact fun _ _ _ _ hab hba =>
    Std.LawfulEqCmp.eq_of_compare (Std.OrientedCmp.isLE_antisymm hab hba)

theorem pairwise_sorted_lt {texts : List String} (h : texts.Nodup) :
    (sorted texts).Pairwise fun a b => units a < units b := by
  have hne : (sorted texts).Pairwise (· ≠ ·) := (perm_sorted texts).nodup_iff.mpr h
  refine (pairwise_sorted texts).imp₂ (fun a b hle hab => ?_) hne
  rw [← order_eq_lt_iff]
  cases horder : order a b with
  | lt => rfl
  | eq => exact absurd (Std.LawfulEqCmp.eq_of_compare horder) hab
  | gt =>
    rw [horder] at hle
    cases hle

end TableQuery.Text
