import TableQuery.Filter.Evaluation

/-! # Compiled patterns

The expression of every pattern is read back, and to the parts of the pattern: each unit of
the pattern is written on its own, and what is written for it is read as its part
whatever follows. So no condition breaks off at its pattern, and every filter is evaluated.
-/
namespace TableQuery
open Text

namespace Pattern

def partOf (u : Nat) : PatternPart := if u = 0x25 then .run else if u = 0x5F then .one else .unit u

/-- What stands for a unit of a pattern in its expression. -/
def written (u : Nat) : List Nat := withOnes (withRuns (escaped [u]))

theorem escaped_eq (us : List Nat) : escaped us = us.flatMap fun u => escaped [u] := by
  simp [escaped]

theorem expression_eq (pattern : String) :
    expression pattern = (units pattern).flatMap written := by
  unfold expression
  rw [escaped_eq, withRuns, List.flatMap_assoc, withOnes, List.map_flatMap]
  rfl

theorem written_of_sign : ∀ u ∈ signs, written u = [0x5C, u] ∧ partOf u = .unit u := by decide

theorem written_run : written 0x25 = [0x2E, 0x2A] := by decide

theorem written_one : written 0x5F = [0x2E] := by decide

theorem written_of_plain {u : Nat} (hs : u ∉ signs) (hr : u ≠ 0x25) (ho : u ≠ 0x5F) :
    written u = [u] := by
  simp [written, escaped, hs, withRuns, hr, withOnes, ho]

theorem head?_written_ne (us : List Nat) : (us.flatMap written).head? ≠ some 0x2A := by
  cases us with
  | nil => simp
  | cons u us =>
    rw [List.flatMap_cons]
    by_cases hs : u ∈ signs
    · simp [(written_of_sign u hs).1]
    · by_cases hr : u = 0x25
      · simp [hr, written_run]
      · by_cases ho : u = 0x5F
        · simp [ho, written_one]
        · have hstar : u ≠ 0x2A := fun h => hs (h ▸ by decide)
          simp [written_of_plain hs hr ho, hstar]

theorem readExpression?_one {rest : List Nat} (h : rest.head? ≠ some 0x2A) :
    readExpression? (0x2E :: rest) = (readExpression? rest).map (.one :: ·) := by
  cases rest with
  | nil => simp [readExpression?]
  | cons v rest =>
    have hv : v ≠ 0x2A := by simpa using h
    simp [readExpression?, hv]

theorem readExpression?_plain {u : Nat} (h : u ∉ signs) (rest : List Nat) :
    readExpression? (u :: rest) = (readExpression? rest).map (.unit u :: ·) := by
  have hslash : u ≠ 0x5C := fun e => h (e ▸ by decide)
  have hpoint : u ≠ 0x2E := fun e => h (e ▸ by decide)
  simp [readExpression?, hslash, hpoint, h]

theorem readExpression?_written (u : Nat) {rest : List Nat} (h : rest.head? ≠ some 0x2A) :
    readExpression? (written u ++ rest) = (readExpression? rest).map (partOf u :: ·) := by
  by_cases hs : u ∈ signs
  · obtain ⟨hwritten, hpart⟩ := written_of_sign u hs
    rw [hwritten, hpart]
    simp [readExpression?, hs]
  · by_cases hr : u = 0x25
    · rw [hr, written_run]
      simp [readExpression?, partOf]
    · by_cases ho : u = 0x5F
      · rw [ho, written_one]
        exact readExpression?_one h
      · rw [written_of_plain hs hr ho, partOf, if_neg hr, if_neg ho]
        exact readExpression?_plain hs rest

theorem readExpression?_flatMap_written (us : List Nat) :
    readExpression? (us.flatMap written) = some (us.map partOf) := by
  induction us with
  | nil => simp [readExpression?]
  | cons u us ih =>
    rw [List.flatMap_cons, readExpression?_written u (head?_written_ne us), ih]
    rfl

theorem compile_eq_ok (pattern : String) : compile pattern = .ok (ofText pattern) := by
  have hread := readExpression?_flatMap_written (units pattern)
  rw [← expression_eq] at hread
  unfold compile
  dsimp only
  rw [hread]
  rfl

end Pattern

namespace Condition

theorem evaluateComparison_eq_ok (operator : Operator) (v literal : Value) :
    evaluateComparison operator v literal = .ok (compares operator v literal) := by
  cases operator
  case like | ilike =>
    rw [evaluateComparison, Pattern.compile_eq_ok]
    rfl
  all_goals rfl

theorem evaluateValue_eq_ok (c : Condition) (v : Value) :
    c.evaluateValue v = .ok (c.testValue v) := by
  unfold evaluateValue testValue
  cases c.operator
  case isSame | isOther | isIn | between => rfl
  all_goals exact evaluateComparison_eq_ok _ v (coerce v c.value)

theorem evaluate_eq_ok (c : Condition) (row : Row) : c.evaluate row = .ok (c.holds row) := by
  have htest : c.evaluateTest row = .ok (c.test row) := by
    unfold evaluateTest test
    cases row.resolve? c.field with
    | some v => exact evaluateValue_eq_ok c v
    | none =>
      dsimp only
      rw [evaluateValue_eq_ok]
      cases c.operator == .isSame || c.operator == .isOther <;> rfl
  rw [evaluate, htest]
  rfl

end Condition

namespace Filter

theorem evaluate_eq_ok (f : Filter) (row : Row) : f.evaluate row = .ok (f.accepts row) := by
  cases f with
  | all => rfl
  | chain first rest =>
    simp only [evaluate, Condition.evaluate_eq_ok]
    exact List.foldlM_pure

theorem keep_eq_ok (f : Filter) (rows : List Row) :
    f.keep rows = .ok (rows.filter fun row => f.accepts row) := by
  induction rows with
  | nil => rfl
  | cons row rows ih =>
    rw [keep, evaluate_eq_ok, ih, List.filter_cons]
    cases f.accepts row <;> rfl

end Filter

end TableQuery
