import TableQuery.Data.Json.Printer
import TableQuery.Value.TypeName

/-! # Field profiles

The profile of a field tells the type of its values, whether any of them is null,
and on demand its first different values. Rows are surveyed field by field: a field
that is met for the first time gets a blank profile, and every value is entered into
the profile of its field. A name that every record answers to seems to have a profile
already, so it gets none. What is written onto such a profile is kept for all later
surveys, and the first type that is written must not be that of an empty list. Under
the name `__proto__` it is written onto the record that all others inherit from, so
that every record then answers to the names `type` and `nullable` as well, with what
is no profile.
-/
namespace TableQuery

structure Profile where
  type : TypeName
  nullable : Bool
  samples : Option (List Plain)

namespace Profile

def toPlain (p : Profile) : Plain :=
  .ofFields [("type", some (.string p.type.text)), ("nullable", some (.bool p.nullable)),
    ("sampleValues", p.samples.map .list)]

/-- The profile of a field without values, with or without room for samples. -/
def blank (sampled : Bool) : Profile := ⟨.null, false, if sampled then some [] else none⟩

/-- Enters that a value is null, or else its type. -/
def enter (p : Profile) (v : Value) : Profile :=
  if v.isNull then { p with nullable := true } else { p with type := p.type.join v.typeName }

def addSample (p : Profile) (sample : Plain) : Profile :=
  { p with samples := p.samples.map (· ++ [sample]) }

end Profile

/-- What is known while rows are surveyed: the profiles of their fields, the JSON texts of the
samples of each field, and what was noted on the records that all others inherit from. -/
structure Survey where
  profiles : Record Profile
  texts : List (String × List Char)
  noted : Record.Noted

/-- Why a survey breaks off: a type is to be joined with none, or a property is to be written onto
the text or the truth value that every record answers with. -/
inductive SurveyFault where
  | untyped
  | onText (property : String)
  | onTruth (property : String)
  deriving DecidableEq, Repr

def SurveyFault.message : SurveyFault → String
  | untyped => (Record.BuiltinRead.mk "startsWith").message
  | onText property =>
    "Cannot create property '" ++ property ++ "' on string '" ++ TypeName.mixed.text ++ "'"
  | onTruth property => "Cannot create property '" ++ property ++ "' on boolean 'true'"

namespace Survey

def profileOf (maxSamples : Option Nat) (s : Survey) (name : String) : Profile :=
  (Record.get? s.profiles name).getD (.blank maxSamples.isSome)

/-- Whether a value becomes a sample of its field: it is not null, and there is room for a sample
of its text. -/
def isSample (maxSamples : Option Nat) (s : Survey) (name : String) (v : Value) : Bool :=
  match maxSamples, (s.profileOf maxSamples name).samples with
  | some bound, some taken =>
    !v.isNull && taken.length < bound && !s.texts.contains (name, v.toPlain.json)
  | _, _ => false

/-- The profile of a field behind one more of its values. -/
def extended (maxSamples : Option Nat) (s : Survey) (name : String) (v : Value) : Profile :=
  let p := (s.profileOf maxSamples name).enter v
  if s.isSample maxSamples name v then p.addSample v.toPlain else p

/-- Enters a value into the profile of its field. -/
def enter (maxSamples : Option Nat) (s : Survey) (name : String) (v : Value) : Survey :=
  { s with
    profiles := Record.set s.profiles name (s.extended maxSamples name v)
    texts := if s.isSample maxSamples name v then (name, v.toPlain.json) :: s.texts else s.texts }

/-- Notes a value on the record under a builtin name. That of `__proto__` is the one that all
others inherit from, and only there a mark as nullable is seen again. -/
def note (s : Survey) (name : String) (v : Value) : Except SurveyFault Survey :=
  if v.isNull then
    .ok (if name = "__proto__" then { s with noted := { s.noted with nullable := true } } else s)
  else if s.noted.hasType name then .ok s
  else if v.typeName = .array then .error .untyped
  else .ok { s with noted := { s.noted with typed := name :: s.noted.typed } }

/-- What a value breaks off with that comes under the name of a noted type or mark. -/
def faultOf (s : Survey) (name : String) (v : Value) : SurveyFault :=
  let property := if v.isNull then "nullable" else "type"
  if name = "type" then .onText property
  else if v.typeName = .array && !s.noted.hasType "__proto__" then .untyped
  else .onTruth property

def meet (maxSamples : Option Nat) (s : Survey) (name : String) (v : Value) :
    Except SurveyFault Survey :=
  if Record.has s.profiles name || !s.noted.answers name then .ok (s.enter maxSamples name v)
  else if Record.isBuiltin name then s.note name v
  else .error (s.faultOf name v)

/-- Surveys fields one after the other, up to one at which this breaks off. -/
def run (maxSamples : Option Nat) :
    Survey → List (String × Value) → Except SurveyFault Unit × Survey
  | s, [] => (.ok (), s)
  | s, (name, v) :: rest =>
    match s.meet maxSamples name v with
    | .ok s' => run maxSamples s' rest
    | .error reason => (.error reason, s)

end Survey

/-- The profiles of all fields, with what is noted behind them; samples are taken where their number
is given. -/
def Profile.ofRows (maxSamples : Option Nat) (noted : Record.Noted) (rows : List Row) :
    Except SurveyFault (Record Profile) × Record.Noted :=
  let (outcome, s) := Survey.run maxSamples ⟨[], [], noted⟩ rows.flatten
  (outcome.map fun () => s.profiles, s.noted)

end TableQuery
