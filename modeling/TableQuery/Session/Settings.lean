import TableQuery.Catalog.Issue

/-! # Settings

The numbers that an engine works with and where it logs. Every setting has a
default, so no settings at all are settings, and settings of other names are passed
over.
-/
namespace TableQuery

structure LogSettings where
  enabled : Bool := false
  file : String := "./rowquery.log"
  deriving DecidableEq, Repr

structure Settings where
  /-- The row limit where the caller gives none. -/
  defaultLimit : Nat := 8192
  /-- The rows in which selected fields are looked for. -/
  fieldSampleRows : Nat := 5
  /-- The rows from which fields are suggested, how deep, and how many. -/
  suggestionSampleRows : Nat := 3
  suggestionDepth : Nat := 3
  maxSuggestedFields : Nat := 20
  /-- The rows from which the fields of one table are described. -/
  schemaSampleRows : Nat := 10
  maxSampleValues : Nat := 3
  log : LogSettings := {}
  deriving DecidableEq, Repr

namespace Settings

def checkLog : Option Plain → Checked LogSettings
  | none => ⟨[], {}⟩
  | some (.map fields) =>
    let enabled := Plain.checkBool ["log", "enabled"] false (Record.get? fields "enabled")
    let file := Plain.checkString ["log", "file"] "./rowquery.log" (Record.get? fields "file")
    ⟨enabled.issues ++ file.issues, ⟨enabled.value, file.value⟩⟩
  | some p => ⟨[Plain.mismatch ["log"] .object (some p)], {}⟩

def checkFields (fields : Record Plain) : Checked Settings :=
  let nat (name : String) (bound absent : Nat) : Checked Nat :=
    Plain.checkNat [name] bound absent (Record.get? fields name)
  let defaultLimit := nat "defaultLimit" 0 8192
  let fieldSampleRows := nat "fieldSampleRows" 1 5
  let suggestionSampleRows := nat "suggestionSampleRows" 1 3
  let suggestionDepth := nat "suggestionDepth" 0 3
  let maxSuggestedFields := nat "maxSuggestedFields" 1 20
  let schemaSampleRows := nat "schemaSampleRows" 1 10
  let maxSampleValues := nat "maxSampleValues" 0 3
  let log := checkLog (Record.get? fields "log")
  { issues := defaultLimit.issues ++ fieldSampleRows.issues ++ suggestionSampleRows.issues
      ++ suggestionDepth.issues ++ maxSuggestedFields.issues ++ schemaSampleRows.issues
      ++ maxSampleValues.issues ++ log.issues
    value := {
      defaultLimit := defaultLimit.value
      fieldSampleRows := fieldSampleRows.value
      suggestionSampleRows := suggestionSampleRows.value
      suggestionDepth := suggestionDepth.value
      maxSuggestedFields := maxSuggestedFields.value
      schemaSampleRows := schemaSampleRows.value
      maxSampleValues := maxSampleValues.value
      log := log.value } }

def ofPlain (p : Option Plain) : Except (List Issue) Settings :=
  let fields := Plain.checkObject p
  if fields.issues.isEmpty then (checkFields fields.value).result else .error fields.issues

def toPlain (s : Settings) : Plain :=
  .ofFields [
    ("defaultLimit", some (.ofNat s.defaultLimit)),
    ("fieldSampleRows", some (.ofNat s.fieldSampleRows)),
    ("suggestionSampleRows", some (.ofNat s.suggestionSampleRows)),
    ("suggestionDepth", some (.ofNat s.suggestionDepth)),
    ("maxSuggestedFields", some (.ofNat s.maxSuggestedFields)),
    ("schemaSampleRows", some (.ofNat s.schemaSampleRows)),
    ("maxSampleValues", some (.ofNat s.maxSampleValues)),
    ("log", some (.ofFields [("enabled", some (.bool s.log.enabled)),
      ("file", some (.string s.log.file))]))]

end Settings
end TableQuery
