import TableQuery.Data.Entries
import TableQuery.Number.Notation
import TableQuery.Query.Call
import TableQuery.Query.Nesting

/-! # Select lists

A select list names the columns of the result: field paths, calls of aggregate
functions, both with or without an alias, or a single star for whole rows. A leading
word DISTINCT asks for rows without repetition.
-/
namespace TableQuery

structure Selection where
  /-- The columns of the result, in order. -/
  columns : List String
  distinct : Bool
  /-- The columns that hold calls. -/
  calls : List (String × Call)
  /-- The aliases, each with the path or label it stands for. -/
  aliases : List (String × String)
  deriving DecidableEq, Repr

namespace Selection
open Text

def empty (distinct : Bool) : Selection := ⟨[], distinct, [], []⟩

def isStar (s : Selection) : Bool := s.columns.contains "*"

/-- The expression and the alias of an item that ends in the word AS and a name. -/
def aliased? (cs : List Char) : Option (List Char × List Char) :=
  let back := cs.reverse
  let name := (back.takeWhile isNameChar).reverse
  let rest := back.dropWhile isNameChar
  let expression := (word? "SA".toList (trimStart rest)).bind blanks?
  match rest, expression with
  | c :: _, some (e :: es) =>
    if isBlank c && isName name then some ((e :: es).reverse, name) else none
  | _, _ => none

def addCall (s : Selection) (column : String) (call : Call) : Selection :=
  { s with columns := s.columns ++ [column], calls := Entries.set s.calls column call }

def addAlias (s : Selection) (column source : String) : Selection :=
  { s with aliases := Entries.set s.aliases column source }

def addColumn (s : Selection) (column : String) : Selection :=
  { s with columns := s.columns ++ [column] }

def addItem (s : Selection) (item : List Char) : Except Fault Selection := do
  if item.isEmpty then throw .emptySelectItem
  match aliased? item with
  | some (expression, name) =>
    let column := String.ofList name
    match ← Call.read? .select expression with
    | some call => pure ((s.addCall column call).addAlias column call.label)
    | none =>
      let source := String.ofList (trim expression)
      if !isFieldPath (trim expression) then throw (.badSelectField source)
      pure ((s.addColumn column).addAlias column source)
  | none =>
    match ← Call.read? .select item with
    | some call => pure (s.addCall call.label call)
    | none =>
      let column := String.ofList item
      if item != ['*'] && !isFieldPath item then throw (.badSelectField column)
      pure (s.addColumn column)

def afterDistinct? (cs : List Char) : Option (List Char) :=
  match word? "DISTINCT".toList cs with
  | some rest => if wordEnds rest then some (trim rest) else none
  | none => none

def read (cs : List Char) : Except Fault Selection := do
  let text := trim cs
  if text.isEmpty then throw .emptySelect
  let (distinct, items) :=
    match afterDistinct? text with
    | some rest => (true, rest)
    | none => (false, text)
  if items.isEmpty then throw .emptyDistinct
  let s ← (← splitCommas .select items).foldlM addItem (empty distinct)
  if s.isStar && decide (1 < s.columns.length) then throw .starNotAlone
  pure s

end Selection

namespace Query
open Text

def readGroup (cs : List Char) : Except Fault (List String) := do
  let text := trim cs
  if text.isEmpty then throw .emptyGroup
  (← splitCommas .group text).mapM fun field => do
    if field.isEmpty then throw .emptyGroupField
    if !isFieldPath field then throw (.badGroupField (String.ofList field))
    pure (String.ofList field)

/-- The number of a LIMIT clause: digits and nothing else. -/
def readLimit (cs : List Char) : Except Fault Float :=
  let text := trim cs
  if !text.isEmpty && text.all Char.isDigit then
    .ok (Number.Decimal.toFloat false ⟨Number.digitsValue text, 0⟩)
  else .error (.badLimit (String.ofList text))

end Query
end TableQuery
