import TableQuery.Proofs.Filter.BetweenBounds

/-! # Values among candidates

A comparison turns a quoted literal into the kind of the value before the two are compared. A
test of candidates leaves them as they are, so a number or a truth value is not found where it
is quoted. Apart from this the test is the disjunction of the comparisons with the candidates.
-/
namespace TableQuery

namespace Value

/-- Whether a text stands for a number or a truth value: it writes an equal number, or it is one
of the words for true exactly if the value is true. -/
def isQuotedBy (v : Value) (s : String) : Bool :=
  match v with
  | .bool b => b == Condition.truthy.contains (Text.lower s)
  | .int _ | .float _ => (readNumber? s.toList).any (equal v)
  | _ => false

end Value

namespace Condition
open Value

variable {v : Value} {items : List Value}

theorem equal_coerce_of_number {x : Float} (hv : v.number? = some x) (s : String) :
    equal v ((readNumber? s.toList).getD (.string s)) = (readNumber? s.toList).any (equal v) := by
  cases readNumber? s.toList with
  | none => cases v <;> cases hv <;> rfl
  | some w => rfl

theorem equal_coerce_string (v : Value) (s : String) :
    equal v (coerce v (.string s)) = (equal v (.string s) || v.isQuotedBy s) := by
  cases v with
  | int x => exact equal_coerce_of_number rfl s
  | float x => exact equal_coerce_of_number rfl s
  | string t => exact (Bool.or_false _).symm
  | _ => rfl

/-- A value equals a candidate that is turned into its kind if it equals one as it is, or is
quoted by one. -/
theorem exists_equal_coerce_iff : (∃ w ∈ items, equal v (coerce v w) = true) ↔
    (∃ w ∈ items, equal v w = true) ∨ ∃ s, .string s ∈ items ∧ v.isQuotedBy s = true := by
  constructor
  · rintro ⟨w, hw, h⟩
    cases hstring : w.isString with
    | false =>
      rw [coerce_of_not_isString hstring] at h
      exact .inl ⟨w, hw, h⟩
    | true =>
      obtain ⟨s, rfl⟩ : ∃ s, w = .string s := by
        cases w <;> first | exact ⟨_, rfl⟩ | cases hstring
      rw [equal_coerce_string, Bool.or_eq_true] at h
      exact h.imp (fun h => ⟨_, hw, h⟩) fun h => ⟨s, hw, h⟩
  · rintro (⟨w, hw, h⟩ | ⟨s, hs, h⟩)
    · refine ⟨w, hw, ?_⟩
      cases w with
      | string s => rw [equal_coerce_string, h, Bool.true_or]
      | _ => exact h
    · refine ⟨_, hs, ?_⟩
      rw [equal_coerce_string, h, Bool.or_true]

end Condition

namespace Filter
open Condition Value

variable (row : Row) (field : String)

theorem evaluate_isIn (items : List Value) (negated : Bool) :
    Filter.evaluate row (.chain ⟨field, .isIn, .list items, negated⟩ []) =
      .ok ((row.resolve? field).any (fun v => items.any (equal v)) != negated) := by
  rw [evaluate_eq_ok, accepts, List.foldl_nil, holds, test]
  cases row.resolve? field <;> rfl

theorem evaluate_equal (w : Value) :
    Filter.evaluate row (.chain ⟨field, .equal, w, false⟩ []) =
      .ok ((row.resolve? field).any fun v => equal v (coerce v w)) := by
  rw [evaluate_eq_ok, accepts, List.foldl_nil, holds, test]
  cases row.resolve? field with
  | none => rfl
  | some v => exact congrArg Except.ok (Bool.xor_false _)

/-- A test of candidates and its negation are opposite, and the test is the disjunction of the
comparisons with the candidates exactly if no value is quoted among them that does not also
stand there as it is. -/
theorem evaluate_isIn_iff (items : List Value) :
    ∃ found, Filter.evaluate row (.chain ⟨field, .isIn, .list items, false⟩ []) = .ok found ∧
      Filter.evaluate row (.chain ⟨field, .isIn, .list items, true⟩ []) = .ok (!found) ∧
      ((found = true ↔ ∃ w ∈ items,
          Filter.evaluate row (.chain ⟨field, .equal, w, false⟩ []) = .ok true) ↔
        ∀ v, row.resolve? field = some v → (∃ s, .string s ∈ items ∧ v.isQuotedBy s = true) →
          ∃ w ∈ items, equal v w = true) := by
  refine ⟨(row.resolve? field).any fun v => items.any (equal v), ?_, ?_, ?_⟩
  · rw [evaluate_isIn, Bool.bne_false]
  · rw [evaluate_isIn, Bool.bne_true]
  simp only [evaluate_equal, Except.ok.injEq]
  cases row.resolve? field with
  | none => simp
  | some v =>
    simp only [Option.any_some, List.any_eq_true, exists_equal_coerce_iff, Option.some.injEq,
      forall_eq']
    exact ⟨fun h hquoted => h.mpr (.inr hquoted), fun h => ⟨.inl, fun hor => hor.elim id h⟩⟩

/-- The number 5 is not found among the candidates where it is quoted. -/
theorem not_evaluate_isIn : ¬ ∀ (row : Row) (field : String) (cs : List Char)
    (items : List Value), readLiterals cs = .ok items →
      (Filter.evaluate row (.chain ⟨field, .isIn, .list items, false⟩ []) = .ok true ↔
        ∃ w ∈ items, Filter.evaluate row (.chain ⟨field, .equal, w, false⟩ []) = .ok true) := by
  intro h
  have hsame := h [("x", .int (Number.ofNat 5))] "x" "'5'".toList [.string "5"] rfl
  simp only [evaluate_isIn, evaluate_equal] at hsame
  exact absurd hsame (by decide +kernel)

end Filter
end TableQuery
