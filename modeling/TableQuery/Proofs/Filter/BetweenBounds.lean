import TableQuery.Proofs.Filter.CompiledPattern
import TableQuery.Proofs.Number.Rank
import TableQuery.Proofs.Text.UnitOrder

/-! # Values between two bounds

A comparison with one bound first turns a quoted bound into the kind of the value. Whether a
value lies between two bounds is decided without this, by number if all three are numbers and by
text otherwise. So the two agree where no bound has to be turned and none but both of the bounds
are numbers, or else by chance.
-/
namespace TableQuery

namespace Value

def isString : Value → Bool
  | .string _ => true
  | _ => false

/-- Whether a literal is a number, or a text that writes one. -/
def isNumeral : Value → Bool
  | .int _ | .float _ => true
  | .string s => (readNumber? s.toList).isSome
  | _ => false

def isScalar : Value → Bool
  | .list _ | .map _ => false
  | _ => true

theorem isScalar_readLiteral (cs : List Char) : (readLiteral cs).isScalar = true := by
  unfold readLiteral
  dsimp only
  split
  · rfl
  split
  · rfl
  split
  · rfl
  split
  · rfl
  split
  · rfl
  · cases hnumber : readNumber? (Text.trim cs) with
    | none => rfl
    | some v =>
      obtain ⟨x, -, rfl⟩ := Option.map_eq_some_iff.mp hnumber
      rw [Option.getD_some]
      split <;> rfl

/-- The natural order of values that are not both numbers is that of their texts. -/
theorem order_text_of_compare? {a b : Value} {o : Ordering} (h : compare? a b = some o)
    (hscalar : a.isScalar = true ∨ b.isScalar = true)
    (hnumber : a.number? = none ∨ b.number? = none) : Text.order a.text b.text = o := by
  cases a <;> cases b <;> simp only [compare?, reduceCtorEq, Option.some.injEq] at h
  case string.string s t => exact h
  case bool.bool x y =>
    rw [← h]
    cases x <;> cases y <;> decide
  case list.list => simp [isScalar] at hscalar
  all_goals simp [number?] at hnumber

theorem looseOrder_eq_text {a b : Value} (hscalar : a.isScalar = true ∨ b.isScalar = true)
    (hnumber : a.number? = none ∨ b.number? = none) :
    looseOrder a b = Text.order a.text b.text := by
  unfold looseOrder
  cases h : compare? a b with
  | none => rfl
  | some o => exact (order_text_of_compare? h hscalar hnumber).symm

theorem number?_of_compare? {a b : Value} {o : Ordering} (h : compare? a b = some o) :
    a.number? = none ↔ b.number? = none := by
  cases a <;> cases b <;> simp only [compare?, reduceCtorEq, Option.some.injEq] at h
  all_goals simp [number?]

theorem compare?_of_number? {a b : Value} {x y : Float} (ha : a.number? = some x)
    (hb : b.number? = some y) : compare? a b = some (Number.order x y) := by
  cases a <;> cases ha <;> cases b <;> cases hb <;> rw [compare?]

end Value

namespace Condition
open Value

/-- Whether a value lies between two bounds by the order of texts. -/
def isTextBetween (low high v : Value) : Bool :=
  (Text.order low.text v.text).isLE && (Text.order v.text high.text).isLE

/-- Whether a value reaches one bound and does not exceed another, compared with one bound at a
time. -/
def isBounded (low high v : Value) : Bool :=
  compares .atLeast v (coerce v low) && compares .atMost v (coerce v high)

/-- Whether the bounds are settled for a value: they need not be turned into its kind, and not
just one of them is a number like the value. -/
def settles (low high : Value) : Value → Bool
  | .bool _ => !low.isString && !high.isString
  | .int _ | .float _ =>
    low.number?.isSome && high.number?.isSome || !low.isNumeral && !high.isNumeral
  | _ => true

variable {low high v : Value}

theorem isBetween_eq_text (hlow : low.isScalar = true) (hhigh : high.isScalar = true)
    (h : v.number? = none ∨ low.number? = none ∨ high.number? = none) :
    isBetween low high v = isTextBetween low high v := by
  unfold isBetween isTextBetween
  split
  · next l r hl hr =>
    have hv : v.number? = none := by
      rcases h with h | h | h
      · exact h
      · exact (number?_of_compare? hl).mp h
      · exact (number?_of_compare? hr).mpr h
    rw [order_text_of_compare? hl (.inl hlow) (.inr hv),
      order_text_of_compare? hr (.inr hhigh) (.inl hv)]
  · rfl

theorem isBounded_eq_text (hlow : low.isScalar = true) (hhigh : high.isScalar = true)
    (hlow' : coerce v low = low) (hhigh' : coerce v high = high)
    (h : v.number? = none ∨ low.number? = none ∧ high.number? = none) :
    isBounded low high v = isTextBetween low high v := by
  have hswap : Text.order v.text low.text = (Text.order low.text v.text).swap :=
    Std.OrientedCmp.eq_swap
  unfold isBounded isTextBetween compares
  dsimp only
  rw [hlow', hhigh', looseOrder_eq_text (.inr hlow) (h.imp_right (·.1)),
    looseOrder_eq_text (.inr hhigh) (h.imp_right (·.2)), hswap, Ordering.isGE_swap]

theorem isBetween_of_numbers {x y z : Float} (hlow : low.number? = some x)
    (hv : v.number? = some y) (hhigh : high.number? = some z) :
    isBetween low high v = isBounded low high v := by
  have hcoerce {bound : Value} {w : Float} (h : bound.number? = some w) :
      coerce v bound = bound := by
    cases bound <;> first | rfl | cases h
  unfold isBetween isBounded compares looseOrder
  dsimp only
  rw [hcoerce hlow, hcoerce hhigh, compare?_of_number? hlow hv, compare?_of_number? hv hlow,
    compare?_of_number? hv hhigh, Option.getD_some, Option.getD_some, Number.order_swap x y,
    Ordering.isGE_swap]

theorem coerce_of_not_isString {bound : Value} (h : bound.isString = false) (v : Value) :
    coerce v bound = bound := by
  cases bound with
  | string s => cases h
  | _ => rfl

theorem coerce_of_not_isNumeral {bound : Value} (h : bound.isNumeral = false)
    (hv : v.number? ≠ none) : coerce v bound = bound := by
  cases bound with
  | string s =>
    have hread : readNumber? s.toList = none :=
      Option.not_isSome_iff_eq_none.mp (Bool.not_eq_true _ |>.mpr h)
    cases v with
    | int x => rw [coerce, hread, Option.getD_none]
    | float x => rw [coerce, hread, Option.getD_none]
    | _ => exact absurd rfl hv
  | _ => rfl

theorem number?_of_not_isNumeral {bound : Value} (h : bound.isNumeral = false) :
    bound.number? = none := by
  cases bound with
  | int x | float x => cases h
  | _ => rfl

section
variable (hlow : low.isScalar = true) (hhigh : high.isScalar = true)
include hlow hhigh

theorem isBetween_eq_isBounded (hlow' : coerce v low = low) (hhigh' : coerce v high = high)
    (h : v.number? = none ∨ low.number? = none ∧ high.number? = none) :
    isBetween low high v = isBounded low high v := by
  rw [isBounded_eq_text hlow hhigh hlow' hhigh' h]
  exact isBetween_eq_text hlow hhigh (h.imp_right fun h => .inl h.1)

theorem isBetween_of_numeric (hv : v.number? ≠ none) (h : (low.number?.isSome &&
    high.number?.isSome || !low.isNumeral && !high.isNumeral) = true) :
    isBetween low high v = isBounded low high v := by
  rcases Bool.or_eq_true_iff.mp h with hnumbers | hothers
  · obtain ⟨hnumber, hnumber'⟩ := Bool.and_eq_true_iff.mp hnumbers
    obtain ⟨x, hx⟩ := Option.isSome_iff_exists.mp hnumber
    obtain ⟨y, hy⟩ := Option.ne_none_iff_exists'.mp hv
    obtain ⟨z, hz⟩ := Option.isSome_iff_exists.mp hnumber'
    exact isBetween_of_numbers hx hy hz
  · rw [Bool.and_eq_true, Bool.not_eq_true', Bool.not_eq_true'] at hothers
    exact isBetween_eq_isBounded hlow hhigh (coerce_of_not_isNumeral hothers.1 hv)
      (coerce_of_not_isNumeral hothers.2 hv)
      (.inr ⟨number?_of_not_isNumeral hothers.1, number?_of_not_isNumeral hothers.2⟩)

theorem isBetween_of_settles (h : settles low high v = true) :
    isBetween low high v = isBounded low high v := by
  have hplain (hlow' : coerce v low = low) (hhigh' : coerce v high = high)
      (hv : v.number? = none) := isBetween_eq_isBounded hlow hhigh hlow' hhigh' (.inl hv)
  cases v with
  | bool b =>
    rw [settles, Bool.and_eq_true, Bool.not_eq_true', Bool.not_eq_true'] at h
    exact hplain (coerce_of_not_isString h.1 _) (coerce_of_not_isString h.2 _) rfl
  | int x => exact isBetween_of_numeric hlow hhigh nofun h
  | float x => exact isBetween_of_numeric hlow hhigh nofun h
  | _ => exact hplain (by cases low <;> rfl) (by cases high <;> rfl) rfl

theorem isBetween_of_unsettled (h : settles low high v = false) :
    isBetween low high v = isTextBetween low high v := by
  refine isBetween_eq_text hlow hhigh ?_
  have hnumeric (h : (low.number?.isSome && high.number?.isSome ||
      !low.isNumeral && !high.isNumeral) = false) :
      low.number? = none ∨ high.number? = none := by
    have hboth := (Bool.or_eq_false_iff.mp h).1
    rwa [Bool.and_eq_false_iff, Option.isSome_eq_false_iff, Option.isSome_eq_false_iff,
      Option.isNone_iff_eq_none, Option.isNone_iff_eq_none] at hboth
  cases v with
  | int x => exact .inr (hnumeric h)
  | float x => exact .inr (hnumeric h)
  | _ => exact .inl rfl

end

theorem holds_of_resolve? {row : Row} {field : String} (hv : row.resolve? field = some v)
    (operator : Operator) (literal : Value) :
    holds ⟨field, operator, literal, false⟩ row = testValue ⟨field, operator, literal, false⟩ v := by
  unfold holds test
  dsimp only
  rw [hv]
  exact Bool.xor_false _

end Condition

namespace Filter
open Condition Value

section
variable {row : Row} {field : String} {v : Value} (hv : row.resolve? field = some v)
include hv

theorem evaluate_between (low high : Value) :
    Filter.evaluate row (.chain ⟨field, .between, .list [low, high], false⟩ []) =
      .ok (isBetween low high v) := by
  rw [evaluate_eq_ok, accepts, List.foldl_nil, holds_of_resolve? hv]
  rfl

theorem evaluate_bounds (low high : Value) :
    Filter.evaluate row (.chain ⟨field, .atLeast, low, false⟩
      [(.and, ⟨field, .atMost, high, false⟩)]) = .ok (isBounded low high v) := by
  rw [evaluate_eq_ok, accepts, List.foldl_cons, List.foldl_nil]
  dsimp only
  rw [holds_of_resolve? hv, holds_of_resolve? hv]
  rfl

/-- A condition with two bounds agrees with the two comparisons exactly where the bounds are
settled or the comparisons come out as those of the texts. -/
theorem evaluate_between_iff (low high : List Char) :
    Filter.evaluate row
        (.chain ⟨field, .between, .list [readLiteral low, readLiteral high], false⟩ []) =
      Filter.evaluate row (.chain ⟨field, .atLeast, readLiteral low, false⟩
        [(.and, ⟨field, .atMost, readLiteral high, false⟩)]) ↔
    settles (readLiteral low) (readLiteral high) v = true ∨
      Filter.evaluate row (.chain ⟨field, .atLeast, readLiteral low, false⟩
        [(.and, ⟨field, .atMost, readLiteral high, false⟩)]) =
        .ok (isTextBetween (readLiteral low) (readLiteral high) v) := by
  have hlow := isScalar_readLiteral low
  have hhigh := isScalar_readLiteral high
  rw [evaluate_between hv, evaluate_bounds hv, Except.ok.injEq, Except.ok.injEq]
  cases hsettles : settles (readLiteral low) (readLiteral high) v with
  | true => exact iff_of_true (isBetween_of_settles hlow hhigh hsettles) (.inl rfl)
  | false =>
    rw [isBetween_of_unsettled hlow hhigh hsettles]
    exact ⟨fun h => .inr h.symm, fun h => (h.resolve_left Bool.false_ne_true).symm⟩

end

/-- A number between bounds that are numbers. -/
theorem evaluate_between_iff_numbers :
    Row.resolve? [("x", .int (Number.ofNat 10))] "x" = some (.int (Number.ofNat 10)) ∧
    Filter.evaluate [("x", .int (Number.ofNat 10))] (.chain
        ⟨"x", .between, .list [readLiteral "2.5".toList, readLiteral "20".toList], false⟩ []) =
      Filter.evaluate [("x", .int (Number.ofNat 10))]
        (.chain ⟨"x", .atLeast, readLiteral "2.5".toList, false⟩
          [(.and, ⟨"x", .atMost, readLiteral "20".toList, false⟩)]) :=
  ⟨rfl, (evaluate_between_iff rfl "2.5".toList "20".toList).mpr (.inl (by decide +kernel))⟩

/-- The quoted bounds 5 and 20 are turned into numbers by the comparisons only. -/
theorem not_evaluate_between : ¬ ∀ (row : Row) (field : String) (v : Value) (low high : List Char),
    row.resolve? field = some v →
      Filter.evaluate row
          (.chain ⟨field, .between, .list [readLiteral low, readLiteral high], false⟩ []) =
        Filter.evaluate row (.chain ⟨field, .atLeast, readLiteral low, false⟩
          [(.and, ⟨field, .atMost, readLiteral high, false⟩)]) := by
  intro h
  have hsame := h [("x", .int (Number.ofNat 10))] "x" _ "'5'".toList "'20'".toList rfl
  rw [evaluate_eq_ok, evaluate_eq_ok, Except.ok.injEq] at hsame
  exact absurd hsame (by decide +kernel)

end Filter
end TableQuery
