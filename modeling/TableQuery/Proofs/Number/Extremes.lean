import TableQuery.Proofs.Number.Bounds

/-! # Least and greatest numbers

Different doubles have different signed ranks, so of a list without what is not a number the
least and the greatest one are determined by its members. How often they stand in the list, and
in which order, does not matter.
-/
namespace TableQuery.Number

theorem signedRank_injective {x y : Float} (h : signedRank x = signedRank y) : x = y := by
  apply Float.toBits_inj.mp
  apply UInt64.toNat_inj.mp
  have hx : x.toBits.toNat < 2 ^ 64 := x.toBits.toNat_lt
  have hy : y.toBits.toNat < 2 ^ 64 := y.toBits.toNat_lt
  unfold signedRank isNegative magnitude at h
  simp only [Nat.pow_eq, decide_eq_true_eq] at h
  split at h <;> split at h <;> omega

/-- Of two numbers the one is chosen that has the lower place. -/
structure Chooses (choose : Float → Float → Float) (place : Float → Int) : Prop where
  injective : ∀ x y, place x = place y → x = y
  eq : ∀ x y, isNaN x = false → isNaN y = false → choose x y = if place x ≤ place y then x else y

theorem chooses_least : Chooses least signedRank where
  injective _ _ h := signedRank_injective h
  eq x y hx hy := by simp [least, hx, hy]

theorem chooses_greatest : Chooses greatest fun x => -signedRank x where
  injective _ _ h := signedRank_injective (Int.neg_inj.mp h)
  eq x y hx hy := by
    have hplace : -signedRank x ≤ -signedRank y ↔ signedRank y ≤ signedRank x := by omega
    simp [greatest, hx, hy, hplace]

namespace Chooses
variable {choose : Float → Float → Float} {place : Float → Int}

theorem eq_left_iff (h : Chooses choose place) {x y : Float} (hx : isNaN x = false)
    (hy : isNaN y = false) : choose x y = x ↔ place x ≤ place y := by
  rw [h.eq x y hx hy]
  split
  · next hle => exact ⟨fun _ => hle, fun _ => rfl⟩
  · next hlt =>
    constructor
    · rintro rfl
      exact absurd (Int.le_refl _) hlt
    · intro hle
      exact absurd hle hlt

/-- What is chosen from a list one by one is the number of the list with the lowest place. -/
theorem foldl_mem (h : Chooses choose place) {x : Float} {xs : List Float}
    (hnumbers : ∀ y ∈ x :: xs, isNaN y = false) :
    xs.foldl choose x ∈ x :: xs ∧ ∀ y ∈ x :: xs, place (xs.foldl choose x) ≤ place y := by
  induction xs generalizing x with
  | nil =>
    refine ⟨List.mem_cons_self, fun y hy => ?_⟩
    rw [List.mem_singleton.mp hy]
    exact Int.le_refl _
  | cons y xs ih =>
    have hx := hnumbers x List.mem_cons_self
    have hy := hnumbers y (List.mem_cons_of_mem _ List.mem_cons_self)
    have hchosen := h.eq x y hx hy
    have hrest : ∀ z ∈ choose x y :: xs, isNaN z = false := by
      refine List.forall_mem_cons.mpr ⟨?_, fun z hz =>
        hnumbers z (List.mem_cons_of_mem _ (List.mem_cons_of_mem _ hz))⟩
      rw [hchosen]
      split
      · exact hx
      · exact hy
    obtain ⟨hmem, hlowest⟩ := ih hrest
    have hfirst := hlowest _ List.mem_cons_self
    rw [List.foldl_cons]
    constructor
    · rcases List.mem_cons.mp hmem with hmem | hmem
      · rw [hmem, hchosen]
        split
        · exact List.mem_cons_self
        · exact List.mem_cons_of_mem _ List.mem_cons_self
      · exact List.mem_cons_of_mem _ (List.mem_cons_of_mem _ hmem)
    · intro z hz
      have hboth : place (choose x y) ≤ place x ∧ place (choose x y) ≤ place y := by
        rw [hchosen]
        split <;> omega
      rcases List.mem_cons.mp hz with rfl | hz
      · exact Int.le_trans hfirst hboth.1
      rcases List.mem_cons.mp hz with rfl | hz
      · exact Int.le_trans hfirst hboth.2
      · exact hlowest z (List.mem_cons_of_mem _ hz)

theorem unique (h : Chooses choose place) {xs : List Float} {m n : Float} (hm : m ∈ xs)
    (hn : n ∈ xs) (hmLowest : ∀ x ∈ xs, place m ≤ place x)
    (hnLowest : ∀ x ∈ xs, place n ≤ place x) : m = n :=
  h.injective m n (Int.le_antisymm (hmLowest n hn) (hnLowest m hm))

end Chooses
end TableQuery.Number
