import TableQuery.Filter.Pattern
import TableQuery.Query.Literal
import TableQuery.Value.Order
import TableQuery.Value.Path

/-! # Conditions on rows

A condition compares the value at a field path with a literal. A missing field
satisfies only the test for null. Before a comparison a quoted literal is turned
into a number or a truth value where the row holds one; values without a natural
order are then compared by their texts.
-/
namespace TableQuery

inductive Operator where
  | equal
  | notEqual
  | unlike
  | greater
  | less
  | atLeast
  | atMost
  | like
  | ilike
  | isIn
  | between
  | isSame
  | isOther
  /-- A name without meaning, which holds of nothing. -/
  | unknown (name : String)
  deriving DecidableEq, Repr

namespace Operator

def name : Operator → String
  | equal => "="
  | notEqual => "!="
  | unlike => "<>"
  | greater => ">"
  | less => "<"
  | atLeast => ">="
  | atMost => "<="
  | like => "LIKE"
  | ilike => "ILIKE"
  | isIn => "IN"
  | between => "BETWEEN"
  | isSame => "IS"
  | isOther => "IS NOT"
  | unknown name => name

def known : List Operator :=
  [equal, notEqual, unlike, greater, less, atLeast, atMost, like, ilike, isIn, between, isSame,
    isOther]

def ofName (name : String) : Operator :=
  (known.find? fun operator => operator.name == name).getD (unknown name)

end Operator

structure Condition where
  field : String
  operator : Operator
  /-- The literal: a list of candidates for `isIn`, the two bounds for `between`. -/
  value : Value
  negated : Bool

namespace Condition

def truthy : List String := ["true", "1", "yes", "on"]

/-- A text literal as the kind of value that the row holds. -/
def coerce (rowValue literal : Value) : Value :=
  match literal with
  | .string s =>
    match rowValue with
    | .int _ => (Value.readNumber? s.toList).getD literal
    | .float _ => (Value.readNumber? s.toList).getD literal
    | .bool _ => .bool (truthy.contains (Text.lower s))
    | _ => literal
  | _ => literal

/-- Whether a value lies between two bounds: by natural order if it has one with both, by text
otherwise. -/
def isBetween (low high v : Value) : Bool :=
  match Value.compare? low v, Value.compare? v high with
  | some l, some h => l.isLE && h.isLE
  | _, _ => (Text.order low.text v.text).isLE && (Text.order v.text high.text).isLE

/-- A comparison of a row's value with a literal of the same kind. -/
def compares (operator : Operator) (v literal : Value) : Bool :=
  match operator with
  | .equal => Value.equal v literal
  | .notEqual | .unlike => !Value.equal v literal
  | .greater => (Value.looseOrder v literal).isGT
  | .less => (Value.looseOrder v literal).isLT
  | .atLeast => (Value.looseOrder v literal).isGE
  | .atMost => (Value.looseOrder v literal).isLE
  | .like | .ilike => Pattern.matchesText literal.text v.text
  | _ => false

def testValue (c : Condition) (v : Value) : Bool :=
  match c.operator with
  | .isSame => Value.equal v c.value
  | .isOther => !Value.equal v c.value
  | .isIn =>
    match c.value with
    | .list items => items.any (Value.equal v)
    | _ => false
  | .between =>
    match c.value with
    | .list [low, high] => isBetween low high v
    | _ => false
  | operator => compares operator v (coerce v c.value)

def test (c : Condition) (row : Row) : Bool :=
  match row.resolve? c.field with
  | some v => testValue c v
  | none => (c.operator == .isSame || c.operator == .isOther) && testValue c .null

def holds (c : Condition) (row : Row) : Bool := c.test row != c.negated

def text (c : Condition) : String :=
  c.field ++ " " ++ (if c.negated then "NOT " else "") ++ c.operator.name ++ " " ++ c.value.text

end Condition
end TableQuery
