import TableQuery.Catalog.Basic
import TableQuery.Data.Json.Reader
import TableQuery.Session.Settings

/-! # Files of settings and tables

What is found under the name of a file, and what is read from it. A file of settings
need not exist; a file of tables must. Both hold JSON.
-/
namespace TableQuery.CommandLine

/-- What is found under the name of a file. -/
inductive FileContent where
  | missing
  | directory
  | unreadable (reason : String)
  | text (text : String)
  deriving DecidableEq, Repr

inductive FileTrouble where
  | missing (name : String)
  | directory
  | unreadable (reason : String)
  | notJson (text : String) (fault : Json.Fault)
  | refused (issues : List Issue)
  deriving DecidableEq, Repr

namespace FileContent

def read (name : String) : FileContent → Except FileTrouble Plain
  | missing => .error (.missing name)
  | directory => .error .directory
  | unreadable reason => .error (.unreadable reason)
  | text s => (Json.read s).mapError (.notJson s)

end FileContent

/-- The reason alone; issues are written by `issues`. -/
def FileTrouble.reason (issues : List Issue → String) : FileTrouble → String
  | missing name => "ENOENT: no such file or directory, open '" ++ name ++ "'"
  | directory => "EISDIR: illegal operation on a directory, read"
  | unreadable reason => reason
  | notJson text fault => fault.message text
  | refused found => issues found

def FileTrouble.ofSettings (name : String) (t : FileTrouble) : String :=
  "Failed to load " ++ name ++ ": " ++ t.reason Issue.lines

/-- The message about a file of tables, which is named only where it could be read. -/
def FileTrouble.ofCatalog (name : String) (t : FileTrouble) : String :=
  match t with
  | notJson _ _ | refused _ => "Invalid data file " ++ name ++ ": " ++ t.reason Issue.prettyLines
  | _ => t.reason Issue.prettyLines

def loadSettings (name : String) (content : FileContent) : Except FileTrouble Settings :=
  match content with
  | .missing => .ok {}
  | _ => do
    let p ← content.read name
    (Settings.ofPlain (some p)).mapError .refused

def loadCatalog (name : String) (content : FileContent) : Except FileTrouble Catalog := do
  let p ← content.read name
  (Catalog.ofPlain (some p)).mapError .refused

end TableQuery.CommandLine
