import TableQuery.Query.Call
import TableQuery.Query.Literal
import TableQuery.Value.Path

/-! # Aggregates of rows

Counting counts rows, or the rows in which a field is not null. The other functions
work on the sample of a field: the numbers found in it row by row, where truth
values are 0 and 1, texts that write a number stand for it, and everything else is
left out. Of an empty sample they are null. Sums are taken from left to right, and
the variance is that of a sample, divided by one less than its size.
-/
namespace TableQuery

namespace Value

/-- The number that a value counts as in a sample. -/
def sampleNumber? : Value → Option Float
  | .int x => some x
  | .float x => some x
  | .bool b => some (Number.ofNat b.toNat)
  | .string s => (readNumber? s.toList).bind number?
  | _ => none

end Value

namespace Rows

def sample (field : String) (rows : List Row) : List Float :=
  rows.filterMap fun row => (row.resolve? field).bind Value.sampleNumber?

def total (xs : List Float) : Float := xs.foldl (· + ·) (Number.ofNat 0)

def mean (xs : List Float) : Float := total xs / Number.ofNat xs.length

def variance (xs : List Float) : Float :=
  if xs.length < 2 then Number.ofNat 0
  else
    let m := mean xs
    total (xs.map fun x => (x - m) * (x - m)) / Number.ofNat (xs.length - 1)

def ofSample (function : Aggregate) : List Float → Value
  | [] => .null
  | x :: xs =>
    match function with
    | .count => .null
    | .sum => .float (total (x :: xs))
    | .avg => .float (mean (x :: xs))
    | .min => .float (xs.foldl Number.least x)
    | .max => .float (xs.foldl Number.greatest x)
    | .stddev => .float (variance (x :: xs)).sqrt
    | .variance => .float (variance (x :: xs))

def summarize (call : Call) (rows : List Row) : Value :=
  match call.function with
  | .count =>
    if call.field = "*" then .ofNat rows.length
    else .ofNat (rows.countP fun row => !(row.lookup call.field).isNull)
  | function => ofSample function (sample call.field rows)

def callNamed (function field : String) : Except Fault Call :=
  match Aggregate.ofName? function.toList with
  | some known => .ok ⟨known, field⟩
  | none => .error (.unknownAggregate function)

end Rows
end TableQuery
