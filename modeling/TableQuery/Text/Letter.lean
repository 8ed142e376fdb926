import TableQuery.Text.Blank

/-! # Words without regard to case

Keywords are ASCII and are matched letter by letter in either case. A word given
as data is compared after its characters are written as capitals; of the
characters outside ASCII only those matter whose capitals are ASCII letters.
-/
namespace TableQuery.Text

def isNameStart (c : Char) : Bool := c.isAlpha || c == '_'

def isNameChar (c : Char) : Bool := c.isAlphanum || c == '_'

/-- The capitals of a character, which may be several letters. -/
def capitals (c : Char) : List Char :=
  match c.toNat with
  | 0x17F => ['S']
  | 0x131 => ['I']
  | 0xDF => ['S', 'S']
  | 0xFB00 => ['F', 'F']
  | 0xFB01 => ['F', 'I']
  | 0xFB02 => ['F', 'L']
  | 0xFB03 => ['F', 'F', 'I']
  | 0xFB04 => ['F', 'F', 'L']
  | 0xFB05 => ['S', 'T']
  | 0xFB06 => ['S', 'T']
  | _ => [c.toUpper]

def upper (cs : List Char) : List Char := cs.flatMap capitals

def lower (s : String) : String := String.ofList (s.toList.map Char.toLower)

/-- What follows a word written in capitals, where the text starts with that word in any case. -/
def word? : List Char → List Char → Option (List Char)
  | [], rest => some rest
  | _ :: _, [] => none
  | w :: word, c :: rest => if c.toUpper == w then word? word rest else none

def blanks? : List Char → Option (List Char)
  | [] => none
  | c :: rest => if isBlank c then some (trimStart rest) else none

/-- Whether a word may end here: at the end of the text or before a blank. -/
def wordEnds : List Char → Bool
  | [] => true
  | c :: _ => isBlank c

def commaJoin (texts : List String) : String := ", ".intercalate texts

end TableQuery.Text
