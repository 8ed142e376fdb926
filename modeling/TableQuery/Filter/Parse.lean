import TableQuery.Filter.Reader

/-! # Filters from their parts

The first operator of a comparison is found as a token, a piece of its text, and is
then looked up in a table that lists the tokens in capitals and with single blanks. A
filter is put together from a list of conditions and a list of the words between them.
Both steps can fail of themselves, apart from what is wrong with the text.
-/
namespace TableQuery
open Text

/-- Why a text is not parsed: the text has a fault, or its parts do not fit together. -/
inductive ParseError where
  | fault (fault : Fault)
  | mismatch (mismatch : Filter.Mismatch)
  deriving DecidableEq, Repr

namespace Operator

/-- Every run of blanks as a single space; the first argument says whether a run goes on. -/
def squeeze : Bool → List Char → List Char
  | _, [] => []
  | inRun, c :: rest =>
    if isBlank c then if inRun then squeeze true rest else ' ' :: squeeze true rest
    else c :: squeeze false rest

/-- The operators by their tokens, each with whether it is negated. -/
def tokens : List (String × Operator × Bool) :=
  [("NOT LIKE", .like, true), ("NOT ILIKE", .ilike, true), ("LIKE", .like, false),
    ("ILIKE", .ilike, false), (">=", .atLeast, false), ("<=", .atMost, false),
    ("!=", .notEqual, false), ("<>", .unlike, false), (">", .greater, false), ("<", .less, false),
    ("=", .equal, false)]

def ofToken (token : List Char) : Except Fault (Operator × Bool) :=
  match tokens.lookup (String.ofList (squeeze false (upper token))) with
  | some found => .ok found
  | none => .error (.unknownOperator (String.ofList token))

end Operator

namespace Condition

/-- The signs that a token may be, longer ones first. -/
def signTokens : List String := [">=", "<=", "!=", "<>", ">", "<", "="]

def signToken? (cs : List Char) : Option (List Char × List Char) :=
  signTokens.findSome? fun token => (token.toList.isPrefixOf? cs).map (token.toList, ·)

/-- A pattern word at the start of a text, together with a NOT in front of it, and what follows. -/
def wordToken? (cs : List Char) : Option (List Char × List Char) :=
  let negatedRest := (word? "NOT".toList cs).bind blanks?
  [(negatedRest, "ILIKE"), (negatedRest, "LIKE"), (some cs, "ILIKE"), (some cs, "LIKE")].findSome?
    fun (start, word) =>
      match start.bind (word? word.toList) with
      | some rest =>
        if patternWordEnds rest then some (cs.take (cs.length - rest.length), rest) else none
      | none => none

def tokenAt? (start : Bool) (cs : List Char) : Option (List Char × List Char) :=
  match signToken? cs with
  | some found => some found
  | none => if start then wordToken? cs else none

/-- Cuts at the first token of the top level: the text before it, the token, and the text behind
it. -/
def cutAtToken? : Nesting → Bool → List Char → Option (List Char × List Char × List Char)
  | _, _, [] => none
  | n, start, c :: rest =>
    match if n.isTop c then tokenAt? start (c :: rest) else none with
    | some (token, behind) => some ([], token, behind)
    | none =>
      (cutAtToken? (n.next c) (isBlank c) rest).map fun (before, found) => (c :: before, found)

def parseComparison (cs : List Char) : Except Fault Condition := do
  requireBalance .filter cs
  let whole := String.ofList cs
  match cutAtToken? (.outside 0) true cs with
  | none => throw (.noOperator whole)
  | some (before, token, behind) =>
    let field := trim before
    let value := trim behind
    if field.isEmpty then throw (.noField whole)
    if !isFieldPath field then throw (.badConditionField (String.ofList field))
    if value.isEmpty then throw (.noValue whole)
    let (operator, negated) ← Operator.ofToken token
    pure ⟨String.ofList field, operator, Value.readLiteral value, negated⟩

def parse (cs : List Char) : Except Fault Condition :=
  let cs := trim cs
  if cs.isEmpty then .error .emptyCondition
  else (readWorded? cs).getD (parseComparison cs)

end Condition

namespace Filter

/-- The texts of the conditions, and the words between them. -/
def splitLists (cs : List Char) : Except Fault (List (List Char) × List Combinator) :=
  (splitConditions cs).map fun (first, rest) => (first :: rest.map (·.2), rest.map (·.1))

def parse (cs : List Char) : Except ParseError Filter := do
  let text := trim cs
  if text.isEmpty then throw (.fault .emptyFilter)
  let (texts, combinators) ← (splitLists text).mapError .fault
  let conditions ← (texts.mapM Condition.parse).mapError .fault
  (ofLists conditions combinators).mapError .mismatch

end Filter
end TableQuery
