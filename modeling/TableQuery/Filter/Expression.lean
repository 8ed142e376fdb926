import TableQuery.Filter.Pattern

/-! # Patterns as expressions

Before a text is matched, its pattern is written as an expression: the signs that have
a meaning there are put behind a backslash, `%` becomes a point and a star, and `_` a
point. The expression is then read back part by part. An expression can be written that
is not read, such as a star alone, and a match with it breaks off.
-/
namespace TableQuery

/-- An expression that is not read. -/
structure BadExpression where
  source : String
  deriving DecidableEq, Repr

def BadExpression.message (e : BadExpression) : String :=
  "Invalid regular expression: /" ++ e.source ++ "/is"

namespace Pattern
open Text

/-- The units `$ ( ) * + . ? [ \ ] ^ { | }`, which have a meaning in an expression. -/
def signs : List Nat :=
  [0x24, 0x28, 0x29, 0x2A, 0x2B, 0x2E, 0x3F, 0x5B, 0x5C, 0x5D, 0x5E, 0x7B, 0x7C, 0x7D]

def escaped (us : List Nat) : List Nat :=
  us.flatMap fun u => if signs.contains u then [0x5C, u] else [u]

def withRuns (us : List Nat) : List Nat :=
  us.flatMap fun u => if u = 0x25 then [0x2E, 0x2A] else [u]

def withOnes (us : List Nat) : List Nat := us.map fun u => if u = 0x5F then 0x2E else u

def expression (pattern : String) : List Nat := withOnes (withRuns (escaped (units pattern)))

/-- The parts of an expression: a sign behind a backslash, a point with a star or without, and
any unit that is no sign. -/
def readExpression? : List Nat → Option (List PatternPart)
  | [] => some []
  | 0x5C :: u :: rest =>
    if signs.contains u then (readExpression? rest).map (.unit u :: ·) else none
  | 0x2E :: 0x2A :: rest => (readExpression? rest).map (.run :: ·)
  | 0x2E :: rest => (readExpression? rest).map (.one :: ·)
  | u :: rest => if signs.contains u then none else (readExpression? rest).map (.unit u :: ·)

def compile (pattern : String) : Except BadExpression (List PatternPart) :=
  let source := expression pattern
  match readExpression? source with
  | some parts => .ok parts
  | none => .error ⟨String.ofList (charsOfUnits source)⟩

/-- Whether the parts of a pattern are found in a text. -/
def foundIn (s : String) (parts : List PatternPart) : Bool :=
  (places parts ((units s).map foldUnit)).any id

end Pattern
end TableQuery
