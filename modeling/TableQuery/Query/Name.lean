import TableQuery.Text.Letter
import TableQuery.Value.Path

/-! # Names and field paths in a query

A name is a letter or underscore followed by letters, digits and underscores, all of
them ASCII. A field path is one or more names joined by points.
-/
namespace TableQuery.Text

def isName : List Char → Bool
  | [] => false
  | c :: rest => isNameStart c && rest.all isNameChar

def isFieldPath (cs : List Char) : Bool := (pathSegments cs).all isName

/-- The longest run of path characters at the start of a text, if it is a field path, and what
follows it. -/
def leadingPath? (cs : List Char) : Option (List Char × List Char) :=
  let isPathChar (c : Char) := isNameChar c || c == '.'
  let path := cs.takeWhile isPathChar
  if isFieldPath path then some (path, cs.dropWhile isPathChar) else none

end TableQuery.Text
