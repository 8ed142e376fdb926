import Std.Time.Format
import TableQuery.CommandLine.Run

/-! # The program

Reads the files that the arguments name, runs the command line on them, writes its
messages and appends to the log file.
-/
namespace TableQuery.Program
open CommandLine

def content (name : String) : IO FileContent := do
  try
    match String.fromUTF8? (← IO.FS.readBinFile name) with
    | some text => pure (.text text)
    | none => pure (.unreadable "not a text")
  catch error =>
    match error with
    | .noFileOrDirectory _ _ _ => pure .missing
    | .inappropriateType _ _ _ => pure .directory
    | other => pure (.unreadable other.toString)

/-- The names of the files that the arguments ask for. -/
def fileNames (arguments : List String) : List String :=
  match Options.read arguments with
  | .ok o => o.config.toList ++ o.dataFile.toList
  | .error _ => []

/-- A number of nanoseconds as milliseconds with one digit after the point. -/
def milliseconds (nanoseconds : Nat) : String :=
  toString (nanoseconds / 1000000) ++ "." ++ toString (nanoseconds / 100000 % 10)

def writeMessage : Message → IO Unit
  | .output text => do
    let out ← IO.getStdout
    out.putStr (outputText text)
    out.flush
  | .info text => IO.eprintln text
  | .error text => IO.eprintln text

def writeEntry (elapsed : String) (file : String) (entry : LogEntry) : IO Unit := do
  let now ← Std.Time.PlainDateTime.now
  let stamp := now.format "uuuu-MM-dd HH:mm:ss.SSS"
  let out ← IO.FS.Handle.mk file .append
  out.putStr ("[" ++ stamp ++ "] (+  0.0ms) " ++ entry.text elapsed ++ "\n")

def start (arguments : List String) : IO UInt32 := do
  let contents ← (fileNames arguments).mapM fun name => do pure (name, ← content name)
  let began ← IO.monoNanosNow
  let find (name : String) : FileContent := (contents.lookup name).getD .missing
  let (outcome, journal) := (run find arguments).run {}
  outcome.messages.forM writeMessage
  let ended ← IO.monoNanosNow
  journal.entries.forM fun (file, entry) => writeEntry (milliseconds (ended - began)) file entry
  pure (if outcome.code = 0 then 0 else 1)

end TableQuery.Program

def main (arguments : List String) : IO UInt32 := TableQuery.Program.start arguments
