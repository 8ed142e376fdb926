import TableQuery.Data.Json.Printer
import TableQuery.Session.Settings

/-! # The journal of a session

What a session leaves behind besides its answers: the tables whose rows were
fetched, what the surveys of fields noted on the records that all others inherit
from, and the log. A line is written to the file that is configured when it is
logged, and only while logging is on. Times are no part of a line; whoever writes
the files puts them in.
-/
namespace TableQuery

inductive LogEntry where
  | message (text : String)
  /-- An answered query; its line tells how long it took. -/
  | answered (rows : Nat) (query : String)
  deriving DecidableEq, Repr

namespace LogEntry

/-- The text of an entry, given how many milliseconds an answer took. -/
def text (elapsed : String) : LogEntry → String
  | message text => text
  | answered rows query =>
    "query ok (" ++ toString rows ++ " rows, " ++ elapsed ++ "ms): " ++ query

/-- The entry of logged data: a text as it is, anything else as JSON. -/
def ofPlain : Plain → LogEntry
  | .string s => .message s
  | p => .message p.jsonText

end LogEntry

structure Journal where
  enabled : Bool := false
  file : String := "./rowquery.log"
  /-- The log entries, each with its file. -/
  entries : List (String × LogEntry) := []
  /-- The tables whose rows were asked for. -/
  fetched : List String := []
  noted : Record.Noted := {}

namespace Journal

/-- Switches logging on or off, and chooses the file, where either is given. -/
def configure (enabled : Option Bool) (file : Option String) (j : Journal) : Journal :=
  { j with enabled := enabled.getD j.enabled, file := file.getD j.file }

def log (entry : LogEntry) (j : Journal) : Journal :=
  if j.enabled then { j with entries := j.entries ++ [(j.file, entry)] } else j

def fetch (table : String) (j : Journal) : Journal := { j with fetched := j.fetched ++ [table] }

def note (noted : Record.Noted) (j : Journal) : Journal := { j with noted }

def stripHere : List Char → List Char
  | '.' :: '/' :: rest => stripHere rest
  | cs => cs

/-- A name without the parts that stay in the directory, so that `./a` and `a` are one name. -/
def plainName (name : String) : String := String.ofList (stripHere name.toList)

def entriesOf (file : String) (j : Journal) : List LogEntry :=
  j.entries.filterMap fun (name, entry) =>
    if plainName name = plainName file then some entry else none

/-- Turns logging on where the settings ask for it. -/
def start (s : Settings) (j : Journal) : Journal :=
  if s.log.enabled then j.configure (some true) (some s.log.file) else j

end Journal
end TableQuery
