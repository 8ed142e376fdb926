import TableQuery.Query.Name
import TableQuery.Query.Fault

/-! # Calls of aggregate functions

A call names one of seven functions, in either case, and the field it is applied to
between parentheses. Only counting takes a star. A call without an alias gives its
column its label, the function's name with the field between parentheses.
-/
namespace TableQuery

inductive Aggregate where
  | count
  | sum
  | avg
  | min
  | max
  | stddev
  | variance
  deriving DecidableEq, Repr

namespace Aggregate

def all : List Aggregate := [count, sum, avg, min, max, stddev, variance]

def name : Aggregate → String
  | count => "COUNT"
  | sum => "SUM"
  | avg => "AVG"
  | min => "MIN"
  | max => "MAX"
  | stddev => "STDDEV"
  | variance => "VARIANCE"

def ofName? (cs : List Char) : Option Aggregate :=
  let upper := String.ofList (Text.upper cs)
  all.find? fun function => function.name == upper

end Aggregate

/-- A function applied to a field path, or to `*`. -/
structure Call where
  function : Aggregate
  field : String
  deriving DecidableEq, Repr

namespace Call
open Text

def label (call : Call) : String := call.function.name ++ "(" ++ call.field ++ ")"

/-- A word of letters and underscores, and the text between the parenthesis behind it and the
one at the end. -/
def parts? (cs : List Char) : Option (List Char × List Char) :=
  let isWordChar (c : Char) := c.isAlpha || c == '_'
  let word := cs.takeWhile isWordChar
  match trimStart (cs.dropWhile isWordChar) with
  | '(' :: rest =>
    if !word.isEmpty && rest.getLast? == some ')' then some (word, trim rest.dropLast) else none
  | _ => none

/-- The call written by a text, if it is written like a call of a known function. -/
def read? (clause : Clause) (cs : List Char) : Except Fault (Option Call) :=
  match parts? (trim cs) with
  | none => pure none
  | some (word, inner) =>
    match Aggregate.ofName? word with
    | none => pure none
    | some function =>
      let field := String.ofList inner
      if inner = ['*'] then
        if function = .count then pure (some ⟨function, field⟩)
        else throw (.starArgument clause function.name)
      else if isFieldPath inner then pure (some ⟨function, field⟩)
      else throw (.badArgument clause function.name field)

end Call
end TableQuery
