import TableQuery.Filter.Basic
import TableQuery.Query.Name

/-! # Reading conditions

The text of a filter is cut at the words AND and OR that stand at its top level; the
AND of a BETWEEN belongs to its condition. A condition is a null test, a BETWEEN, a
list of candidates, or else a field, the first operator at the top level, and a
literal.
-/
namespace TableQuery
open Text

namespace Filter

inductive Connective where
  | joins (combinator : Combinator)
  | between
  deriving DecidableEq, Repr

def connective? (cs : List Char) : Option (Connective × Nat) :=
  [("AND", Connective.joins .and), ("OR", .joins .or), ("BETWEEN", .between)].findSome?
    fun (name, connective) =>
      match word? name.toList cs with
      | some rest => if wordEnds rest then some (connective, cs.length - rest.length) else none
      | none => none

/-- The state says whether a BETWEEN still waits for its AND. -/
def findConnective (waiting : Bool) (cs : List Char) : Option (Bool × Option Combinator × Nat) :=
  (connective? cs).map fun (connective, length) =>
    match connective with
    | .between => (true, none, length)
    | .joins .and => if waiting then (false, none, length) else (false, some .and, length)
    | .joins .or => (waiting, some .or, length)

/-- The text of the first condition, and the others with the word in front of each. -/
def splitConditions (cs : List Char) :
    Except Fault (List Char × List (Combinator × List Char)) := do
  requireBalance .filter cs
  let (first, rest) := Nesting.cutWords findConnective (.outside 0) true 0 false cs
  pure (trim first, rest.map fun (combinator, text) => (combinator, trim text))

end Filter

namespace Condition

def followedBy? (word : List Char) (cs : List Char) : Option (List Char) :=
  (blanks? cs).bind (word? word)

/-- What follows a word in front of which NOT may stand, and whether it does. -/
def notWord? (word : List Char) (cs : List Char) : Option (Bool × List Char) :=
  match ((followedBy? "NOT".toList cs).bind (followedBy? word)) with
  | some rest => some (true, rest)
  | none => (followedBy? word cs).map (false, ·)

/-- The two tests for null: what follows the field is IS NULL or IS NOT NULL and nothing else. -/
def nullTest? (cs : List Char) : Option Operator :=
  match followedBy? "IS".toList cs with
  | none => none
  | some rest =>
    if ((followedBy? "NOT".toList rest).bind (followedBy? "NULL".toList)) = some [] then
      some .isOther
    else if followedBy? "NULL".toList rest = some [] then some .isSame
    else none

/-- The text behind a word AND with blanks on both sides, at the start of a text. -/
def afterAnd? (cs : List Char) : Option (List Char) :=
  match ((followedBy? "AND".toList cs).bind blanks?) with
  | some (c :: rest) => some (c :: rest)
  | _ => none

/-- Cuts at the first word AND that at least one character precedes. -/
def cutAtAnd? : List Char → Option (List Char × List Char)
  | [] => none
  | c :: rest =>
    match afterAnd? rest with
    | some high => some ([c], high)
    | none => (cutAtAnd? rest).map fun (low, high) => (c :: low, high)

/-- The bounds behind BETWEEN and blanks. Where no AND follows the first bound, that bound may be
blank itself: three blanks then hold it. -/
def bounds? (cs : List Char) : Option (List Char × List Char) :=
  (blanks? cs).bind fun inner =>
    match cutAtAnd? inner with
    | some bounds => some bounds
    | none =>
      let blanks := cs.takeWhile isBlank
      if 3 ≤ blanks.length then (afterAnd? (' ' :: inner)).map ([], ·) else none

/-- The text between the parenthesis that starts a text and the one that ends it. -/
def parenthesized? (cs : List Char) : Option (List Char) :=
  match trimStart cs with
  | '(' :: rest => if rest.getLast? == some ')' then some rest.dropLast else none
  | _ => none

/-- The operator of signs at the start of a text, the longer one where two fit. -/
def signs? : List Char → Option (Operator × List Char)
  | '>' :: '=' :: rest => some (.atLeast, rest)
  | '<' :: '=' :: rest => some (.atMost, rest)
  | '!' :: '=' :: rest => some (.notEqual, rest)
  | '<' :: '>' :: rest => some (.unlike, rest)
  | '>' :: rest => some (.greater, rest)
  | '<' :: rest => some (.less, rest)
  | '=' :: rest => some (.equal, rest)
  | _ => none

/-- A pattern word ends before a blank, before a quote, and at the end. -/
def patternWordEnds : List Char → Bool
  | [] => true
  | c :: _ => isBlank c || Nesting.isQuote c

/-- The pattern operator at the start of a text, with NOT in front of it or without. -/
def patternWord? (cs : List Char) : Option (Operator × Bool × List Char) :=
  let negatedRest := (word? "NOT".toList cs).bind blanks?
  [(negatedRest, "ILIKE", Operator.ilike, true), (negatedRest, "LIKE", .like, true),
    (some cs, "ILIKE", .ilike, false), (some cs, "LIKE", .like, false)].findSome?
    fun (start, word, operator, negated) =>
      match start.bind (word? word.toList) with
      | some rest => if patternWordEnds rest then some (operator, negated, rest) else none
      | none => none

/-- The operator that a text starts with; `start` tells whether a word may start here. -/
def operatorAt? (start : Bool) (cs : List Char) : Option (Operator × Bool × List Char) :=
  match signs? cs with
  | some (operator, rest) => some (operator, false, rest)
  | none => if start then patternWord? cs else none

/-- Cuts at the first operator of the top level: the text before it, the operator, whether NOT
stands with it, and the text behind it. -/
def cutAtOperator? : Nesting → Bool → List Char →
    Option (List Char × Operator × Bool × List Char)
  | _, _, [] => none
  | n, start, c :: rest =>
    match if n.isTop c then operatorAt? start (c :: rest) else none with
    | some (operator, negated, behind) => some ([], operator, negated, behind)
    | none =>
      (cutAtOperator? (n.next c) (isBlank c) rest).map fun (before, found) => (c :: before, found)

def readComparison (cs : List Char) : Except Fault Condition := do
  requireBalance .filter cs
  let whole := String.ofList cs
  match cutAtOperator? (.outside 0) true cs with
  | none => throw (.noOperator whole)
  | some (before, operator, negated, behind) =>
    let field := trim before
    let value := trim behind
    if field.isEmpty then throw (.noField whole)
    if !isFieldPath field then throw (.badConditionField (String.ofList field))
    if value.isEmpty then throw (.noValue whole)
    pure ⟨String.ofList field, operator, Value.readLiteral value, negated⟩

/-- The conditions that start with a field path and a word. -/
def readWorded? (cs : List Char) : Option (Except Fault Condition) :=
  match leadingPath? cs with
  | none => none
  | some (path, rest) =>
    let field := String.ofList path
    match nullTest? rest with
    | some operator => some (.ok ⟨field, operator, .null, false⟩)
    | none =>
      let between := (notWord? "BETWEEN".toList rest).bind fun (negated, rest) =>
        (bounds? rest).map fun (low, high) =>
          Except.ok
            ⟨field, .between, .list [Value.readLiteral low, Value.readLiteral high], negated⟩
      match between with
      | some condition => some condition
      | none =>
        (notWord? "IN".toList rest).bind fun (negated, rest) =>
          (parenthesized? rest).map fun inner =>
            (Value.readLiterals inner).map fun items => ⟨field, .isIn, .list items, negated⟩

def read (cs : List Char) : Except Fault Condition :=
  let cs := trim cs
  if cs.isEmpty then .error .emptyCondition
  else (readWorded? cs).getD (readComparison cs)

end Condition

namespace Filter

def read (cs : List Char) : Except Fault Filter := do
  let text := trim cs
  if text.isEmpty then throw .emptyFilter
  let (first, rest) ← splitConditions text
  let first ← Condition.read first
  let rest ← rest.mapM fun (combinator, text) => (Condition.read text).map (combinator, ·)
  pure (.chain first rest)

end Filter
end TableQuery
