import TableQuery.Filter.Condition

/-! # Filters

A filter is a chain of conditions, each joined to those before it by AND or OR.
There is no precedence: the chain is evaluated strictly from left to right. The
empty filter keeps every row.
-/
namespace TableQuery

inductive Combinator where
  | and
  | or
  deriving DecidableEq, Repr

namespace Combinator

def name : Combinator → String
  | and => "AND"
  | or => "OR"

def apply : Combinator → Bool → Bool → Bool
  | and, a, b => a && b
  | or, a, b => a || b

end Combinator

inductive Filter where
  | all
  | chain (first : Condition) (rest : List (Combinator × Condition))

/-- A list of conditions and a list of combinators that do not fit together. -/
structure Filter.Mismatch where
  conditions : Nat
  combinators : Nat
  deriving DecidableEq, Repr

def Filter.Mismatch.message (m : Filter.Mismatch) : String :=
  "Expected " ++ toString (m.conditions - 1) ++ " combinators for " ++ toString m.conditions
    ++ " conditions, got " ++ toString m.combinators

namespace Filter

/-- The chain of some conditions; between them stands one combinator less. -/
def ofLists (conditions : List Condition) (combinators : List Combinator) :
    Except Mismatch Filter :=
  match conditions with
  | [] => .ok .all
  | first :: rest =>
    if combinators.length = rest.length then .ok (.chain first (combinators.zip rest))
    else .error ⟨rest.length + 1, combinators.length⟩

def isEmpty : Filter → Bool
  | all => true
  | chain _ _ => false

def conditions : Filter → List Condition
  | all => []
  | chain first rest => first :: rest.map (·.2)

def combinators : Filter → List Combinator
  | all => []
  | chain _ rest => rest.map (·.1)

def accepts (row : Row) : Filter → Bool
  | all => true
  | chain first rest =>
    rest.foldl (fun result (combinator, c) => combinator.apply result (c.holds row))
      (first.holds row)

end Filter
end TableQuery
