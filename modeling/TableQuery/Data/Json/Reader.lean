import TableQuery.Data.Json.Fault
import TableQuery.Data.Plain
import TableQuery.Number.Notation

/-! # Reading JSON text

A text is read as one value between blanks. Strings hold no raw control characters,
numbers have no superfluous zeros, and a field that is named twice keeps its first
place and its last value. The first fault from the left is reported.
-/
namespace TableQuery.Json

def skipBlanks (cs : List Char) : List Char :=
  cs.dropWhile fun c => c == ' ' || c == '\t' || c == '\n' || c == '\r'

def hexValue? (c : Char) : Option Nat :=
  if c.isDigit then some (c.toNat - 48)
  else if c.isAlpha && decide (c.toLower.toNat < 103) then some (c.toLower.toNat - 87)
  else none

def isHexDigit (c : Char) : Bool := (hexValue? c).isSome

def unitOfHex? (a b c d : Char) : Option Nat := do
  let a ← hexValue? a
  let b ← hexValue? b
  let c ← hexValue? c
  let d ← hexValue? d
  pure (((a * 16 + b) * 16 + c) * 16 + d)

/-- What one letter after a backslash stands for. -/
def escaped? : Char → Option Nat
  | '"' => some 0x22
  | '\\' => some 0x5C
  | '/' => some 0x2F
  | 'b' => some 0x08
  | 'f' => some 0x0C
  | 'n' => some 0x0A
  | 'r' => some 0x0D
  | 't' => some 0x09
  | _ => none

/-- What follows a word that the text has to start with. -/
def literal : List Char → List Char → Except Fault (List Char)
  | [], rest => .ok rest
  | _ :: _, [] => .error ⟨.unexpected, []⟩
  | w :: word, c :: rest => if c == w then literal word rest else .error ⟨.unexpected, c :: rest⟩

/-- The units of a string up to its closing quote, and what follows it. -/
def stringUnits : List Char → Except Fault (List Nat × List Char)
  | [] => .error ⟨.openString, []⟩
  | '"' :: rest => .ok ([], rest)
  | '\\' :: 'u' :: a :: b :: c :: d :: rest =>
    match unitOfHex? a b c d with
    | none => .error ⟨.badUnitEscape, (a :: b :: c :: d :: rest).dropWhile isHexDigit⟩
    | some u => do
      let (us, rest) ← stringUnits rest
      pure (u :: us, rest)
  | '\\' :: 'u' :: rest => .error ⟨.badUnitEscape, rest.dropWhile isHexDigit⟩
  | '\\' :: e :: rest =>
    match escaped? e with
    | none => .error ⟨.badEscape, e :: rest⟩
    | some u => do
      let (us, rest) ← stringUnits rest
      pure (u :: us, rest)
  | ['\\'] => .error ⟨.unexpected, []⟩
  | c :: rest =>
    if c.toNat < 0x20 then .error ⟨.controlCharacter, c :: rest⟩
    else do
      let (us, rest) ← stringUnits rest
      pure (c.toNat :: us, rest)

def readString (cs : List Char) : Except Fault (String × List Char) := do
  let (us, rest) ← stringUnits cs
  pure (String.ofList (Text.charsOfUnits us), rest)

/-- Digits after a point; without a point there are none. -/
def fraction : List Char → Except Fault (List Char × List Char)
  | '.' :: rest =>
    let digits := rest.takeWhile Char.isDigit
    if digits.isEmpty then .error ⟨.emptyFraction, rest⟩
    else .ok (digits, rest.dropWhile Char.isDigit)
  | rest => .ok ([], rest)

def power : List Char → Except Fault (Int × List Char)
  | c :: rest =>
    if c == 'e' || c == 'E' then
      let (negative, rest) := Number.splitSign rest
      let digits := rest.takeWhile Char.isDigit
      let n : Int := Number.digitsValue digits
      if digits.isEmpty then .error ⟨.emptyPower, rest⟩
      else .ok (if negative then -n else n, rest.dropWhile Char.isDigit)
    else .ok (0, c :: rest)
  | [] => .ok (0, [])

/-- The digits before the point: a zero stands alone. -/
def wholePart : List Char → Except Fault (List Char × List Char)
  | '0' :: rest =>
    if (rest.takeWhile Char.isDigit).isEmpty then .ok (['0'], rest) else .error ⟨.unexpected, rest⟩
  | cs =>
    let digits := cs.takeWhile Char.isDigit
    if digits.isEmpty then .error ⟨.loneMinus, cs⟩ else .ok (digits, cs.dropWhile Char.isDigit)

def readNumber (cs : List Char) : Except Fault (Plain × List Char) := do
  let negative := cs.head? == some '-'
  let (whole, rest) ← wholePart (if negative then cs.tail else cs)
  let (places, rest) ← fraction rest
  let (power, rest) ← power rest
  let decimal : Number.Decimal := ⟨Number.digitsValue (whole ++ places), power - places.length⟩
  pure (.number (decimal.toFloat negative), rest)

mutual
/-- One value at the start of a text and what follows it; the fuel bounds the depth and length
of what is read. -/
def readValue : Nat → List Char → Except Fault (Plain × List Char)
  | 0, cs => .error ⟨.unexpected, cs⟩
  | fuel + 1, cs =>
    match skipBlanks cs with
    | [] => .error ⟨.unexpected, []⟩
    | '"' :: rest => do
      let (s, rest) ← readString rest
      pure (.string s, rest)
    | '[' :: rest =>
      match skipBlanks rest with
      | ']' :: rest => pure (.list [], rest)
      | rest => do
        let (items, rest) ← readItems fuel rest
        pure (.list items, rest)
    | '{' :: rest =>
      match skipBlanks rest with
      | '}' :: rest => pure (.map [], rest)
      | rest => do
        let (fields, rest) ← readFields fuel .noFirstFieldName rest
        pure (.map (Record.ofList fields), rest)
    | c :: rest =>
      if c == 'n' then do pure (.null, ← literal "null".toList (c :: rest))
      else if c == 't' then do pure (.bool true, ← literal "true".toList (c :: rest))
      else if c == 'f' then do pure (.bool false, ← literal "false".toList (c :: rest))
      else if c == '-' || c.isDigit then readNumber (c :: rest)
      else .error ⟨.unexpected, c :: rest⟩

def readItems : Nat → List Char → Except Fault (List Plain × List Char)
  | 0, cs => .error ⟨.unexpected, cs⟩
  | fuel + 1, cs => do
    let (item, rest) ← readValue fuel cs
    match skipBlanks rest with
    | ',' :: rest =>
      let (items, rest) ← readItems fuel rest
      pure (item :: items, rest)
    | ']' :: rest => pure ([item], rest)
    | rest => .error ⟨.noItemEnd, rest⟩

/-- Fields up to the closing brace; the mistake is the one made where no name begins. -/
def readFields : Nat → Mistake → List Char → Except Fault (List (String × Plain) × List Char)
  | 0, mistake, cs => .error ⟨mistake, cs⟩
  | fuel + 1, mistake, cs =>
    match skipBlanks cs with
    | '"' :: rest => do
      let (name, rest) ← readString rest
      match skipBlanks rest with
      | ':' :: rest =>
        let (value, rest) ← readValue fuel rest
        match skipBlanks rest with
        | ',' :: rest =>
          let (fields, rest) ← readFields fuel .noFieldName rest
          pure ((name, value) :: fields, rest)
        | '}' :: rest => pure ([(name, value)], rest)
        | rest => .error ⟨.noFieldEnd, rest⟩
      | rest => .error ⟨.noColon, rest⟩
    | rest => .error ⟨mistake, rest⟩
end

def read (s : String) : Except Fault Plain := do
  let cs := s.toList
  let (p, rest) ← readValue (2 * cs.length + 2) cs
  match skipBlanks rest with
  | [] => pure p
  | rest => .error ⟨.textBehindValue, rest⟩

end TableQuery.Json
