import TableQuery.Filter.Parse
import TableQuery.Render.Format

/-! # Responses to a query

A query is answered with rendered rows and their number, or with the text of what
went wrong. A failure tells in which stage it arose.
-/
namespace TableQuery

/-- A step in the evaluation of a statement. -/
inductive Stage where
  | filter
  | group
  | summary
  | distinct
  | order
  | projection
  deriving DecidableEq, Repr

def Stage.label : Stage → String
  | filter => "WHERE clause error"
  | group => "GROUP BY error"
  | summary => "Aggregate error"
  | distinct => "DISTINCT error"
  | order => "ORDER BY error"
  | projection => "Projection error"

inductive Failure where
  | unknownFormat (name : String)
  | badQuery (fault : Fault)
  | mismatched (mismatch : Filter.Mismatch)
  | unknownTable (name : String) (available : List String)
  | notLoaded (table reason : String)
  | unknownField (field table suggestions : String)
  | broken (stage : Stage) (reason : String)
  | notRendered (reason : Record.BuiltinRead)
  | unexpected (reason : String)
  deriving DecidableEq, Repr

namespace Failure

def message : Failure → String
  | unknownFormat name => Format.unknownMessage name
  | badQuery fault => "Query syntax error: " ++ fault.qualifiedMessage
  | mismatched mismatch => "Query syntax error: " ++ mismatch.message
  | unknownTable name available =>
    "Unknown table: '" ++ name ++ "'. Available tables: " ++ Text.commaJoin available
  | notLoaded table reason => "Error loading data from table '" ++ table ++ "': " ++ reason
  | unknownField field table suggestions =>
    "Field '" ++ field ++ "' not found in table '" ++ table ++ "'. Available fields: "
      ++ suggestions
  | broken stage reason => stage.label ++ ": " ++ reason
  | notRendered reason => "Formatting error: " ++ reason.message
  | unexpected reason => "Unexpected error executing query: " ++ reason

def ofParseError : ParseError → Failure
  | .fault fault => badQuery fault
  | .mismatch mismatch => mismatched mismatch

end Failure

inductive Response where
  | success (format : Format) (count : Nat) (data : Rendered)
  /-- The format as it was asked for, and what went wrong. -/
  | failure (format : String) (failure : Failure)

namespace Response

def isSuccess : Response → Bool
  | success _ _ _ => true
  | failure _ _ => false

def toPlain : Response → Plain
  | success format count data =>
    .ofFields [("status", some (.string "success")), ("format", some (.string format.name)),
      ("count", some (.ofNat count)), ("data", some data.toPlain)]
  | failure format f =>
    .ofFields [("status", some (.string "error")), ("format", some (.string format)),
      ("count", some (.ofNat 0)), ("error", some (.string f.message))]

end Response
end TableQuery
