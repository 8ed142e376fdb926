import TableQuery.Data.Json.Printer

/-! # Issues of plain data

Settings, tables and arguments are given as plain data and are checked before use.
Every place that does not fit is an issue with the path to it. Issues are listed in
one line, or for a reader each on its own lines.
-/
namespace TableQuery

inductive Expected where
  | string
  | number
  | int
  | boolean
  | object
  | record
  deriving DecidableEq, Repr

def Expected.name : Expected → String
  | string => "string"
  | number => "number"
  | int => "int"
  | boolean => "boolean"
  | object => "object"
  | record => "record"

inductive Problem where
  | wrongType (expected : Expected) (received : String)
  | noMatch
  | badKey
  | numberBelow (bound : Nat)
  | intBelow
  | intAbove
  | emptyText
  | notInteger
  deriving DecidableEq, Repr

def Problem.message : Problem → String
  | wrongType expected received =>
    "Invalid input: expected " ++ expected.name ++ ", received " ++ received
  | noMatch => "Invalid input"
  | badKey => "Invalid key in record"
  | numberBelow bound => "Too small: expected number to be >=" ++ toString bound
  | intBelow => "Too small: expected int to be >=-9007199254740991"
  | intAbove => "Too big: expected int to be <=9007199254740991"
  | emptyText => "Too small: expected string to have >=1 characters"
  | notInteger => "limit must be an integer"

structure Issue where
  path : List String
  problem : Problem
  deriving DecidableEq, Repr

/-- What a check found, and the value it read, which counts only where it found nothing. -/
structure Checked (α : Type) where
  issues : List Issue
  value : α

namespace Checked

def result {α : Type} (c : Checked α) : Except (List Issue) α :=
  if c.issues.isEmpty then .ok c.value else .error c.issues

end Checked

namespace Issue

def dotted (issue : Issue) : String := ".".intercalate issue.path

def line (issue : Issue) : String :=
  (if issue.dotted = "" then "(root)" else issue.dotted) ++ ": " ++ issue.problem.message

def lines (issues : List Issue) : String := "; ".intercalate (issues.map line)

/-- Whether a name can stand in a path without quotes. -/
def isPlainName (name : String) : Bool :=
  name.toList.all fun c => c.isAlphanum || c == '_' || c == '$'

def prettySegments : List String → String
  | [] => ""
  | name :: rest =>
    let head := if isPlainName name then name else "[" ++ (Plain.string name).jsonText ++ "]"
    let dot := match rest with
      | next :: _ => if isPlainName next then "." else ""
      | [] => ""
    head ++ dot ++ prettySegments rest

def pretty (issue : Issue) : String :=
  "✖ " ++ issue.problem.message ++
    if issue.path.isEmpty then "" else "\n  → at " ++ prettySegments issue.path

/-- The issues for a reader, those nearer to the top first. -/
def prettyLines (issues : List Issue) : String :=
  let sorted := issues.mergeSort fun a b => a.path.length ≤ b.path.length
  "\n".intercalate (sorted.map pretty)

end Issue

namespace Plain

/-- The name of the kind of plain data; nothing at all is undefined. -/
def kindName : Option Plain → String
  | none => "undefined"
  | some .null => "null"
  | some (.bool _) => "boolean"
  | some (.number _) => "number"
  | some (.string _) => "string"
  | some (.list _) => "array"
  | some (.map _) => "object"

def mismatch (path : List String) (expected : Expected) (p : Option Plain) : Issue :=
  let received :=
    match expected, p with
    | .number, some (.number x) => Number.text x
    | _, _ => kindName p
  ⟨path, .wrongType expected received⟩

def checkString (path : List String) (absent : String) : Option Plain → Checked String
  | none => ⟨[], absent⟩
  | some (.string s) => ⟨[], s⟩
  | some p => ⟨[mismatch path .string (some p)], absent⟩

/-- A text that must be there and must not be empty. -/
def checkName (path : List String) : Option Plain → Checked String
  | some (.string "") => ⟨[⟨path, .emptyText⟩], ""⟩
  | some (.string s) => ⟨[], s⟩
  | p => ⟨[mismatch path .string p], ""⟩

def checkBool (path : List String) (absent : Bool) : Option Plain → Checked Bool
  | none => ⟨[], absent⟩
  | some (.bool b) => ⟨[], b⟩
  | some p => ⟨[mismatch path .boolean (some p)], absent⟩

/-- The largest whole number up to which all whole numbers are doubles. -/
def maxInt : Nat := Nat.pow 2 53 - 1

/-- A number that is finite, without fractional part and of safe size. A number beyond the safe
size is still compared with further bounds; any other that does not fit is not. -/
def checkInt (path : List String) : Option Plain → Checked (Option Float)
  | none => ⟨[], none⟩
  | some (.number x) =>
    if !Number.isFinite x then ⟨[mismatch path .number (some (.number x))], none⟩
    else if !Number.isIntegral x then ⟨[mismatch path .int (some (.number x))], none⟩
    else if maxInt < Number.wholePart (Number.magnitude x) then
      ⟨[⟨path, if Number.isNegative x then .intBelow else .intAbove⟩], some x⟩
    else ⟨[], some x⟩
  | some p => ⟨[mismatch path .number (some p)], none⟩

def checkNat (path : List String) (bound absent : Nat) (p : Option Plain) : Checked Nat :=
  let int := checkInt path p
  match int.value with
  | none => ⟨int.issues, absent⟩
  | some x =>
    if Number.order x (Number.ofNat bound) == .lt then
      ⟨int.issues ++ [⟨path, .numberBelow bound⟩], absent⟩
    else ⟨int.issues, Number.wholePart (Number.magnitude x)⟩

/-- The fields of a record of settings or arguments. -/
def checkObject : Option Plain → Checked (Record Plain)
  | some (.map fields) => ⟨[], fields⟩
  | p => ⟨[mismatch [] .object p], []⟩

mutual
/-- Whether plain data holds finite numbers only. -/
def isFinite : Plain → Bool
  | .number x => Number.isFinite x
  | .list items => isFiniteItems items
  | .map fields => isFiniteFields fields
  | _ => true

def isFiniteItems : List Plain → Bool
  | [] => true
  | item :: items => isFinite item && isFiniteItems items

def isFiniteFields : List (String × Plain) → Bool
  | [] => true
  | (_, item) :: fields => isFinite item && isFiniteFields fields
end

def checkPlain : Option Plain → Except (List Issue) Plain
  | some p => if p.isFinite then .ok p else .error [⟨[], .noMatch⟩]
  | none => .error [⟨[], .noMatch⟩]

end Plain
end TableQuery
