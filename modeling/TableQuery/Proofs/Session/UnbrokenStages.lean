import TableQuery.Proofs.Query.TextFaults
import TableQuery.Proofs.Session.Outcome
import TableQuery.Proofs.Session.ResponseFields

/-! # Stages of a parsed query

A query that is parsed breaks off in no stage, so no response names one. A query that is not
parsed has a fault in its text.
-/
namespace TableQuery

def StartsIn (letters : List Char) (s : String) : Prop := ∃ c ∈ letters, s.toList.head? = some c

theorem StartsIn.append {letters : List Char} {a : String} (h : StartsIn letters a) (b : String) :
    StartsIn letters (a ++ b) := by
  obtain ⟨c, hc, ha⟩ := h
  obtain ⟨rest, ha⟩ := List.head?_eq_some_iff.mp ha
  exact ⟨c, hc, by rw [String.toList_append, ha]; rfl⟩

theorem Stage.startsIn_label (stage : Stage) : StartsIn "WGADOP".toList stage.label := by
  cases stage <;> exact ⟨_, by decide, rfl⟩

namespace Failure

def isBroken : Failure → Bool
  | broken _ _ => true
  | _ => false

theorem startsIn_message {f : Failure} (h : f.isBroken = false) :
    StartsIn "UQEF".toList f.message := by
  have literal : ∀ {a : String} {c : Char}, a.toList.head? = some c → c ∈ "UQEF".toList →
      ∀ b, StartsIn "UQEF".toList (a ++ b) := fun ha hc => StartsIn.append ⟨_, hc, ha⟩
  cases f with
  | unknownFormat name => exact ((literal rfl (by decide) _).append _).append _
  | badQuery fault => exact literal rfl (by decide) _
  | mismatched mismatch => exact literal rfl (by decide) _
  | unknownTable name available => exact ((literal rfl (by decide) _).append _).append _
  | notLoaded table reason => exact ((literal rfl (by decide) _).append _).append _
  | unknownField field table suggestions =>
    exact ((((literal rfl (by decide) _).append _).append _).append _).append _
  | broken stage reason => cases h
  | notRendered reason => exact literal rfl (by decide) _
  | unexpected reason => exact literal rfl (by decide) _

theorem message_ne_of_isBroken {f : Failure} (h : f.isBroken = false) (stage : Stage)
    (rest : String) : f.message ≠ stage.label ++ ":" ++ rest := by
  intro hmessage
  obtain ⟨c, hc, hhead⟩ := startsIn_message h
  obtain ⟨d, hd, hlabel⟩ := (stage.startsIn_label.append ":").append rest
  rw [hmessage, hlabel] at hhead
  obtain rfl := Option.some.inj hhead
  have disjoint : ∀ c ∈ "UQEF".toList, c ∉ "WGADOP".toList := by decide
  exact disjoint _ hc hd

end Failure

namespace Engine

theorem unbroken_fetched (p : Provider) (table : String) :
    Refuses (·.isBroken = false) (p.fetched table) := by
  unfold Provider.fetched
  split
  · exact .error rfl
  · split
    · exact .error rfl
    · exact .error rfl
  · exact .mapError fun _ => rfl

theorem unbroken_checkFields (settings : Settings) (s : Statement) (rows : List Row) :
    Refuses (·.isBroken = false) (s.checkFields settings rows) := by
  unfold Statement.checkFields
  split
  · exact .ok _
  · exact .error rfl

theorem unbroken_outcome (noted : Record.Noted) (e : Engine) (p : Provider) (query : String)
    (limit : Float) (format : String) :
    Refuses (·.isBroken = false) (e.outcome noted p query limit format) := by
  unfold outcome
  cases Format.ofName? format with
  | none => exact .error rfl
  | some f =>
    have hread : Refuses (·.isBroken = false) ((Statement.read query).mapError Failure.badQuery) :=
      .mapError fun _ => rfl
    have hrender : ∀ rows, Refuses (·.isBroken = false)
        ((f.render noted rows).mapError Failure.notRendered) := fun _ => .mapError fun _ => rfl
    refine hread.bind fun s => (unbroken_fetched p s.table).bind fun rows => ?_
    exact (unbroken_checkFields e.settings s rows).bind fun _ => (hrender _).bind fun _ => .ok _

/-- A query that is parsed breaks off in no stage, whatever the rows, and no response names one.
A query that is not parsed has a fault in its text. -/
theorem parsed_unbroken (e : Engine) (p : Provider) (query : String) (limit : Option Float)
    (format : String) (j : Journal) :
    (match Statement.parse query with
      | .ok s => ∀ (max : Float) (rows : List Row), (s.filter.keep rows).isOk ∧
          (Rows.evaluateGroups s.group s.selection.calls rows).isOk ∧
          (Rows.evaluateWhole s.selection.calls rows).isOk ∧ (s.evaluate max rows).isOk
      | .error why => ∃ fault, why = .fault fault ∧ (∀ token, fault ≠ .unknownOperator token) ∧
          ∀ function, fault ≠ .unknownAggregate function) ∧
    ∀ (stage : Stage) (rest : String),
      ((e.execute p query limit format).run j).1.error? ≠ some (stage.label ++ ":" ++ rest) := by
  constructor
  · rw [Statement.parse_eq_read]
    cases hread : Statement.read query with
    | ok s =>
      intro max rows
      rw [Filter.keep_eq_ok, Rows.evaluateGroups_eq_ok, Rows.evaluateWhole_eq_ok,
        Statement.evaluate_eq_ok]
      exact ⟨rfl, rfl, rfl, rfl⟩
    | error fault =>
      have htext := Statement.ofText_read query fault hread
      refine ⟨fault, rfl, fun token h => ?_, fun function h => ?_⟩
      · rw [h] at htext
        cases htext
      · rw [h] at htext
        cases htext
  · intro stage rest herror
    rw [execute_fst] at herror
    cases ho : e.outcome j.noted p query (e.limitOr limit) format with
    | ok found =>
      rw [ho] at herror
      cases herror
    | error failure =>
      rw [ho] at herror
      have hunbroken := unbroken_outcome j.noted e p query _ format failure ho
      exact Failure.message_ne_of_isBroken hunbroken stage rest (Option.some.inj herror)

end Engine
end TableQuery
