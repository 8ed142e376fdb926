import TableQuery.Query.Fault
import TableQuery.Text.Unit

/-! # Quotes and parentheses

A character stands at the top level of a text when it lies in no quotes and no
parentheses and is neither itself. A quote inside quoted text is written twice: it
closes the quotes and opens them again at once. Texts are cut at top-level commas
and at top-level words.
-/
namespace TableQuery

inductive Nesting where
  | outside (depth : Nat)
  | quoted (quote : Char) (depth : Nat)
  deriving DecidableEq, Repr

/-- Why a text is not balanced. -/
inductive Imbalance where
  | parentheses
  | quotes
  deriving DecidableEq, Repr

def Imbalance.fault (clause : Clause) : Imbalance → Fault
  | .parentheses => .unbalancedParentheses clause
  | .quotes => .unbalancedQuotes clause

namespace Nesting

def isQuote (c : Char) : Bool := c == '"' || c == '\''

def isOrdinary (c : Char) : Bool := !isQuote c && c != '(' && c != ')'

/-- The nesting behind a character; a parenthesis that closes nothing has none. -/
def next? : Nesting → Char → Option Nesting
  | outside depth, c =>
    if isQuote c then some (quoted c depth)
    else if c = '(' then some (outside (depth + 1))
    else if c = ')' then
      match depth with
      | 0 => none
      | depth + 1 => some (outside depth)
    else some (outside depth)
  | quoted quote depth, c => some (if c = quote then outside depth else quoted quote depth)

def next (n : Nesting) (c : Char) : Nesting := (n.next? c).getD n

def isTop (n : Nesting) (c : Char) : Bool := n == outside 0 && isOrdinary c

def finish : Nesting → Except Imbalance Unit
  | outside 0 => .ok ()
  | outside (_ + 1) => .error .parentheses
  | quoted _ _ => .error .quotes

def check : Nesting → List Char → Except Imbalance Unit
  | n, [] => n.finish
  | n, c :: rest =>
    match n.next? c with
    | some n => check n rest
    | none => .error .parentheses

/-- The places of the top-level characters when `stride - 1` characters behind each are passed
over. -/
def visit (stride : Nat) : Nesting → Nat → Nat → List Char → Except Imbalance (List Nat)
  | n, _, _, [] => n.finish.map fun _ => []
  | n, place, skip + 1, _ :: rest => visit stride n (place + 1) skip rest
  | n, place, 0, c :: rest =>
    match n.next? c with
    | none => .error .parentheses
    | some m =>
      if n.isTop c then (visit stride m (place + 1) (stride - 1) rest).map (place :: ·)
      else visit stride m (place + 1) 0 rest

def extend (c : Char) : List (List Char) → List (List Char)
  | [] => [[c]]
  | part :: parts => (c :: part) :: parts

/-- The parts of a text between its top-level commas. -/
def commaParts : Nesting → List Char → List (List Char)
  | _, [] => [[]]
  | n, c :: rest =>
    if n.isTop c && c == ',' then [] :: commaParts n rest
    else extend c (commaParts (n.next c) rest)

variable {σ κ : Type}

/-- Cuts a text at words that stand at the top level where a token may start. `find` looks at the
text from there; it may change its state, and where it names a cut the word of the given length
is taken out. The result is the text before the first cut and the text behind each cut. -/
def cutWords (find : σ → List Char → Option (σ × Option κ × Nat)) :
    Nesting → Bool → Nat → σ → List Char → List Char × List (κ × List Char)
  | _, _, _, _, [] => ([], [])
  | n, _, skip + 1, s, c :: rest => cutWords find (n.next c) (Text.isBlank c) skip s rest
  | n, start, 0, s, c :: rest =>
    match if start && n.isTop c then find s (c :: rest) else none with
    | some (s, some key, length) =>
      let (text, cuts) := cutWords find (n.next c) (Text.isBlank c) (length - 1) s rest
      ([], (key, text) :: cuts)
    | some (s, none, _) =>
      let (text, cuts) := cutWords find (n.next c) (Text.isBlank c) 0 s rest
      (c :: text, cuts)
    | none =>
      let (text, cuts) := cutWords find (n.next c) (Text.isBlank c) 0 s rest
      (c :: text, cuts)

end Nesting

namespace Text

def requireBalance (clause : Clause) (cs : List Char) : Except Fault Unit :=
  (Nesting.check (.outside 0) cs).mapError (Imbalance.fault clause)

/-- The trimmed parts of a balanced text between its top-level commas; empty parts are kept. -/
def splitCommas (clause : Clause) (cs : List Char) : Except Fault (List (List Char)) := do
  requireBalance clause cs
  pure ((Nesting.commaParts (.outside 0) cs).map trim)

/-- Each character of a text as often as it has 16-bit units. -/
def unitChars (s : String) : List Char :=
  s.toList.flatMap fun c => List.replicate (charUnits c).length c

/-- The places, counted in 16-bit units, of the top-level units of a text. -/
def topLevelUnits (clause : Clause) (stride : Nat) (s : String) : Except Fault (List Nat) :=
  (Nesting.visit stride (.outside 0) 0 0 (unitChars s)).mapError (Imbalance.fault clause)

end Text
end TableQuery
