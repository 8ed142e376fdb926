import TableQuery.Catalog.Issue

/-! # Command line arguments

Options are written `--name`, `--name VALUE`, `--name=VALUE`, `-x`, `-x VALUE` or
`-xVALUE`, and letters may stand together as in `-xy`. After `--` everything is a
positional argument, and so is everything else that does not start with a dash, and
a dash alone. Main definition: `Arguments.read`, which tells the first misuse.
-/
namespace TableQuery.CommandLine

/-- The options that there are. -/
inductive Switch where
  | format
  | limit
  | tables
  | schema
  | summary
  | config
  | log
  | help
  deriving DecidableEq, Repr

namespace Switch

def all : List Switch := [format, limit, tables, schema, summary, config, log, help]

def name : Switch → String
  | format => "format"
  | limit => "limit"
  | tables => "tables"
  | schema => "schema"
  | summary => "summary"
  | config => "config"
  | log => "log"
  | help => "help"

def letter? : Switch → Option Char
  | format => some 'f'
  | limit => some 'l'
  | config => some 'c'
  | help => some 'h'
  | _ => none

def takesValue : Switch → Bool
  | format | limit | schema | config => true
  | tables | summary | log | help => false

def ofName? (name : String) : Option Switch := all.find? fun s => s.name == name

def ofLetter? (c : Char) : Option Switch := all.find? fun s => s.letter? == some c

def spellings (s : Switch) : String :=
  match s.letter? with
  | some c => "-" ++ String.ofList [c] ++ ", --" ++ s.name
  | none => "--" ++ s.name

end Switch

def letterTakesValue (c : Char) : Bool := ((Switch.ofLetter? c).map Switch.takesValue).getD false

/-- The letters of a group, each an argument of its own; what follows a letter that takes a value
stays with it. -/
def spreadLetters : List Char → List String
  | [] => []
  | [c] => [String.ofList ['-', c]]
  | c :: rest =>
    if letterTakesValue c then [String.ofList ('-' :: c :: rest)]
    else String.ofList ['-', c] :: spreadLetters rest

def spread (argument : String) : List String :=
  match argument.toList with
  | '-' :: c :: d :: rest =>
    if c = '-' || letterTakesValue c then [argument] else spreadLetters (c :: d :: rest)
  | _ => [argument]

def terminator : String := "--"

/-- Spreads the groups in front of the terminator, which a group may hold itself. -/
def spreadAll : List String → List String
  | [] => []
  | argument :: rest =>
    let parts := spread argument
    if parts.contains terminator then parts ++ rest else parts ++ spreadAll rest

/-- An option as it is written: under a name of its own or one that no option has, with the value
that is given to it. -/
structure Use where
  switch : Option Switch
  written : String
  value : Option String
  /-- Whether the value is part of the same argument. -/
  inline : Bool
  deriving DecidableEq, Repr

inductive Token where
  | option (use : Use)
  | positional (text : String)
  deriving DecidableEq, Repr

/-- How one argument reads by itself. -/
inductive Shape where
  | terminator
  | positional
  | option (switch : Option Switch) (written : String) (value : Option String)

/-- The first `=` of a name that has one after its first character. -/
def cutName (name : List Char) : List Char × Option (List Char) :=
  if (name.drop 1).contains '=' then
    (name.takeWhile (· != '='), some ((name.dropWhile (· != '=')).drop 1))
  else (name, none)

def shape (argument : String) : Shape :=
  match argument.toList with
  | ['-', '-'] => .terminator
  | '-' :: '-' :: name =>
    let (name, value) := cutName name
    .option (Switch.ofName? (String.ofList name)) ("--" ++ String.ofList name)
      (value.map String.ofList)
  | ['-', c] => .option (Switch.ofLetter? c) (String.ofList ['-', c]) none
  | '-' :: c :: value =>
    .option (Switch.ofLetter? c) (String.ofList ['-', c]) (some (String.ofList value))
  | _ => .positional

/-- An option that takes a value and has none of its own takes the next argument, whatever that
is. -/
def tokens : List String → List Token
  | [] => []
  | argument :: rest =>
    match shape argument with
    | .terminator => rest.map .positional
    | .positional => .positional argument :: tokens rest
    | .option switch written (some value) =>
      .option ⟨switch, written, some value, true⟩ :: tokens rest
    | .option switch written none =>
      if (switch.map Switch.takesValue).getD false then
        match rest with
        | [] => [.option ⟨switch, written, none, false⟩]
        | value :: rest => .option ⟨switch, written, some value, false⟩ :: tokens rest
      else .option ⟨switch, written, none, false⟩ :: tokens rest

inductive Misuse where
  | unknown (written : String)
  | missingValue (switch : Switch)
  | needlessValue (switch : Switch)
  | ambiguousValue (switch : Switch) (written : String)
  deriving DecidableEq, Repr

def Misuse.message : Misuse → String
  | unknown written =>
    "Unknown option '" ++ written ++ "'. To specify a positional argument starting with a '-', "
      ++ "place it at the end of the command after '--', as in '-- "
      ++ (Plain.string written).jsonText
  | missingValue switch => "Option '" ++ switch.spellings ++ " <value>' argument missing"
  | needlessValue switch => "Option '" ++ switch.spellings ++ "' does not take an argument"
  | ambiguousValue switch written =>
    let long := "--" ++ switch.name ++ "=-XYZ"
    let forms :=
      if written.startsWith "--" then "'" ++ written ++ "=-XYZ'"
      else "'" ++ long ++ "' or '" ++ written ++ "-XYZ'"
    "Option '" ++ written ++ "' argument is ambiguous.\n"
      ++ "Did you forget to specify the option argument for '" ++ written ++ "'?\n"
      ++ "To specify an option argument starting with a dash use " ++ forms ++ "."

def looksLikeOption (value : String) : Bool :=
  match value.toList with
  | '-' :: _ :: _ => true
  | _ => false

/-- The option of a use with its value, unless it is misused. -/
def Use.check (use : Use) : Except Misuse (Switch × Option String) :=
  match use.switch, use.value with
  | none, _ => .error (.unknown use.written)
  | some switch, none =>
    if switch.takesValue then .error (.missingValue switch) else .ok (switch, none)
  | some switch, some value =>
    if !switch.takesValue then .error (.needlessValue switch)
    else if !use.inline && looksLikeOption value then .error (.ambiguousValue switch use.written)
    else .ok (switch, some value)

/-- The options in the order they are given, and the positional arguments. -/
structure Arguments where
  options : List (Switch × Option String)
  positionals : List String
  deriving DecidableEq, Repr

namespace Arguments

def ofTokens : List Token → Except Misuse Arguments
  | [] => .ok ⟨[], []⟩
  | .positional text :: rest => do
    let a ← ofTokens rest
    pure { a with positionals := text :: a.positionals }
  | .option use :: rest => do
    let given ← use.check
    let a ← ofTokens rest
    pure { a with options := given :: a.options }

def read (arguments : List String) : Except Misuse Arguments :=
  ofTokens (tokens (spreadAll arguments))

def isGiven (a : Arguments) (switch : Switch) : Bool := a.options.any (·.1 == switch)

/-- The value of an option; of several the last one counts. -/
def value? (a : Arguments) (switch : Switch) : Option String :=
  (a.options.reverse.find? (·.1 == switch)).bind (·.2)

end Arguments
end TableQuery.CommandLine
