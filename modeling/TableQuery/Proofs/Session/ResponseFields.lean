import TableQuery.Session.Response

/-! # Fields of a response

A response is known by its five fields: status, format, count, data and error. The data is
there in a success, the error in a failure.
-/
namespace TableQuery.Response

def status : Response → String
  | success _ _ _ => "success"
  | failure _ _ => "error"

def formatName : Response → String
  | success format _ _ => format.name
  | failure format _ => format

def count : Response → Nat
  | success _ count _ => count
  | failure _ _ => 0

def data? : Response → Option Rendered
  | success _ _ data => some data
  | failure _ _ => none

def error? : Response → Option String
  | success _ _ _ => none
  | failure _ f => some f.message

theorem toPlain_eq (r : Response) : r.toPlain = .ofFields
    [("status", some (.string r.status)), ("format", some (.string r.formatName)),
      ("count", some (.ofNat r.count)), ("data", r.data?.map Rendered.toPlain),
      ("error", r.error?.map .string)] := by
  cases r <;> rfl

end TableQuery.Response
