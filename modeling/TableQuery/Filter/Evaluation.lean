import TableQuery.Filter.Basic
import TableQuery.Filter.Expression

/-! # Evaluating filters

A condition with a pattern compiles the expression of the pattern for every row it is
evaluated on, and breaks off where that expression is not read. All the conditions of
a filter are evaluated, also those that no longer decide.
-/
namespace TableQuery

namespace Condition

def evaluateComparison (operator : Operator) (v literal : Value) : Except BadExpression Bool :=
  match operator with
  | .like | .ilike => (Pattern.compile literal.text).map (Pattern.foundIn v.text)
  | operator => .ok (compares operator v literal)

def evaluateValue (c : Condition) (v : Value) : Except BadExpression Bool :=
  match c.operator with
  | .isSame | .isOther | .isIn | .between => .ok (c.testValue v)
  | operator => evaluateComparison operator v (coerce v c.value)

def evaluateTest (c : Condition) (row : Row) : Except BadExpression Bool :=
  match row.resolve? c.field with
  | some v => c.evaluateValue v
  | none =>
    if c.operator == .isSame || c.operator == .isOther then c.evaluateValue .null else .ok false

def evaluate (c : Condition) (row : Row) : Except BadExpression Bool :=
  (c.evaluateTest row).map (· != c.negated)

end Condition

namespace Filter

def evaluate (row : Row) : Filter → Except BadExpression Bool
  | all => .ok true
  | chain first rest => do
    rest.foldlM (fun result (combinator, c) => (c.evaluate row).map (combinator.apply result))
      (← first.evaluate row)

def keep (f : Filter) : List Row → Except BadExpression (List Row)
  | [] => .ok []
  | row :: rows => do
    let accepted ← f.evaluate row
    let kept ← f.keep rows
    pure (if accepted then row :: kept else kept)

end Filter
end TableQuery
