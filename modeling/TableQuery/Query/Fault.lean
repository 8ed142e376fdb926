import TableQuery.Text.Letter

/-! # Faults of a query text

Everything that can be wrong with a query text, each fault with the clause it
belongs to. The wording names the offending text; a fault of a single clause can be
qualified by the clause's name.
-/
namespace TableQuery

inductive Clause where
  | query
  | select
  | source
  | filter
  | group
  | order
  | limit
  deriving DecidableEq, Repr

namespace Clause

def name : Clause → String
  | .query => "QUERY"
  | .select => "SELECT"
  | .source => "FROM"
  | .filter => "WHERE"
  | .group => "GROUP BY"
  | .order => "ORDER BY"
  | .limit => "LIMIT"

def position : Clause → Nat
  | .query => 0
  | .select => 1
  | .source => 2
  | .filter => 3
  | .group => 4
  | .order => 5
  | .limit => 6

end Clause

inductive Fault where
  | emptyQuery
  | noStructure
  | misplaced (clause earlier : Clause)
  | badTableName (name : String)
  | unbalancedParentheses (clause : Clause)
  | unbalancedQuotes (clause : Clause)
  | emptySelect
  | emptyDistinct
  | emptySelectItem
  | badSelectField (text : String)
  | starNotAlone
  | starArgument (clause : Clause) (function : String)
  | badArgument (clause : Clause) (function text : String)
  | unknownAggregate (function : String)
  | emptyGroup
  | emptyGroupField
  | badGroupField (text : String)
  | emptyOrder
  | emptyOrderItem
  | badDirection (word : String)
  | badOrderField (text : String)
  | badLimit (text : String)
  | emptyFilter
  | emptyCondition
  | noOperator (text : String)
  | noField (text : String)
  | badConditionField (text : String)
  | noValue (text : String)
  | unknownOperator (token : String)
  deriving DecidableEq, Repr

namespace Fault

def clause : Fault → Clause
  | emptyQuery | noStructure => .query
  | misplaced clause _ => clause
  | badTableName _ => .source
  | unbalancedParentheses clause | unbalancedQuotes clause => clause
  | emptySelect | emptyDistinct | emptySelectItem | badSelectField _ | starNotAlone => .select
  | starArgument clause _ | badArgument clause _ _ => clause
  | unknownAggregate _ => .select
  | emptyGroup | emptyGroupField | badGroupField _ => .group
  | emptyOrder | emptyOrderItem | badDirection _ | badOrderField _ => .order
  | badLimit _ => .limit
  | emptyFilter | emptyCondition | noOperator _ | noField _ | badConditionField _ | noValue _
  | unknownOperator _ => .filter

def orEmpty (text : String) : String := if text = "" then "(empty)" else text

def message : Fault → String
  | emptyQuery => "Empty query"
  | noStructure => "Query must have SELECT ... FROM <table> structure"
  | misplaced clause earlier => clause.name ++ " must come before " ++ earlier.name
  | badTableName name => "Invalid table name: " ++ name
  | unbalancedParentheses .query => "Unbalanced parentheses in query"
  | unbalancedParentheses clause => "Mismatched parentheses in " ++ clause.name ++ " clause"
  | unbalancedQuotes .query => "Unbalanced quotes in query"
  | unbalancedQuotes clause => "Unclosed quote in " ++ clause.name ++ " clause"
  | emptySelect => "Empty SELECT clause"
  | emptyDistinct => "Empty field list after DISTINCT"
  | emptySelectItem => "Empty field in SELECT clause"
  | badSelectField text => "Invalid field name: " ++ text
  | starNotAlone => "* cannot be combined with other fields"
  | starArgument _ function => "Function " ++ function ++ " cannot be used with *"
  | badArgument _ function text => "Invalid field name in " ++ function ++ "(): " ++ orEmpty text
  | unknownAggregate function => "Unsupported aggregate function: " ++ function
  | emptyGroup => "Empty GROUP BY clause"
  | emptyGroupField => "Empty field name in GROUP BY"
  | badGroupField text => "Invalid field name in GROUP BY: " ++ text
  | emptyOrder => "Empty ORDER BY clause"
  | emptyOrderItem => "Empty field in ORDER BY clause"
  | badDirection word => "Invalid sort direction: " ++ word ++ ". Use ASC or DESC"
  | badOrderField text => "Invalid field name in ORDER BY: " ++ text
  | badLimit text => "Invalid LIMIT value: " ++ orEmpty text
  | emptyFilter => "Empty WHERE clause"
  | emptyCondition => "Empty condition"
  | noOperator text => "No valid operator found in condition: " ++ text
  | noField text => "Missing field name in condition: " ++ text
  | badConditionField text => "Invalid field name in condition: " ++ text
  | noValue text => "Missing value in condition: " ++ text
  | unknownOperator token => "Unknown operator: " ++ token

/-- The message behind the name of the clause, where the fault is not one of the whole query. -/
def qualifiedMessage (fault : Fault) : String :=
  match fault.clause with
  | .query => fault.message
  | clause => clause.name ++ " clause error: " ++ fault.message

end Fault
end TableQuery
