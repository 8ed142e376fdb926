import TableQuery.Proofs.Session.Outcome
import TableQuery.Proofs.Session.ResponseFields

/-! # Responses in different formats

The rows of an answer do not depend on the format they are rendered in. As plain data they are
always rendered; as a text only where every row has those columns of the first row whose names
every record answers to.
-/
namespace TableQuery

namespace Render

/-- Every row has the columns of the first row that every record answers to. -/
def Regular (noted : Record.Noted) (rows : List Row) : Prop :=
  ∀ row ∈ rows, ∀ column ∈ columns rows, noted.answers column = true →
    Record.has row column = true

instance (noted : Record.Noted) (rows : List Row) : Decidable (Regular noted rows) :=
  inferInstanceAs (Decidable (∀ row ∈ rows, ∀ column ∈ columns rows, _ → _))

theorem isOk_cell (noted : Record.Noted) (property : String) (row : Row) (column : String) :
    (cell noted property row column).isOk ↔
      (noted.answers column = true → Record.has row column = true) := by
  have hhas : Record.has row column = (Record.get? row column).isSome := rfl
  unfold cell
  rw [hhas]
  cases Record.get? row column with
  | some v => simp [Except.isOk, Except.toBool]
  | none => cases noted.answers column <;> simp [Except.isOk, Except.toBool]

theorem isOk_cells (noted : Record.Noted) (property : String) (rows : List Row) :
    (rows.mapM fun row => (columns rows).mapM (cell noted property row)).isOk ↔
      Regular noted rows := by
  simp only [Success.isOk_mapM, isOk_cell]
  rfl

theorem Csv.isOk_text (noted : Record.Noted) (rows : List Row) :
    (Csv.text noted rows).isOk ↔ Regular noted rows := by
  rw [← isOk_cells noted "includes"]
  cases rows with
  | nil => exact Iff.rfl
  | cons row rows =>
    unfold Csv.text Csv.records
    dsimp only
    cases (row :: rows).mapM fun r => (columns (row :: rows)).mapM (cell noted "includes" r) <;>
      exact Iff.rfl

theorem Aligned.isOk_text (noted : Record.Noted) (rows : List Row) :
    (Aligned.text noted rows).isOk ↔ Regular noted rows := by
  rw [← isOk_cells noted "length"]
  cases rows with
  | nil => exact Iff.rfl
  | cons row rows =>
    unfold Aligned.text
    dsimp only
    cases (row :: rows).mapM fun r => (columns (row :: rows)).mapM (cell noted "length" r) <;>
      exact Iff.rfl

end Render

namespace Format

theorem ofName?_name (f : Format) : ofName? f.name = some f := by
  cases f <;> decide

theorem isOk_render_json (noted : Record.Noted) (rows : List Row) :
    (json.render noted rows).isOk := rfl

theorem isOk_render {f : Format} (h : f ≠ .json) (noted : Record.Noted) (rows : List Row) :
    (f.render noted rows).isOk ↔ Render.Regular noted rows := by
  cases f with
  | json => exact absurd rfl h
  | csv =>
    rw [← Render.Csv.isOk_text]
    unfold render
    cases Render.Csv.text noted rows <;> exact Iff.rfl
  | table =>
    rw [← Render.Aligned.isOk_text]
    unfold render
    cases Render.Aligned.text noted rows <;> exact Iff.rfl

end Format

namespace Engine

def answered (e : Engine) (p : Provider) (query : String) (limit : Option Float) :
    Except Failure (List Row) := do
  let statement ← (Statement.read query).mapError Failure.badQuery
  let rows ← p.fetched statement.table
  statement.checkFields e.settings rows
  pure (statement.answer (e.limitOr limit) rows)

def rendered (noted : Record.Noted) (f : Format) (result : List Row) : Response :=
  match f.render noted result with
  | .ok data => .success f result.length data
  | .error reason => .failure f.name (.notRendered reason)

theorem execute_name (e : Engine) (p : Provider) (query : String) (limit : Option Float)
    (f : Format) (j : Journal) :
    ((e.execute p query limit f.name).run j).1 =
      match e.answered p query limit with
      | .ok result => rendered j.noted f result
      | .error failure => .failure f.name failure := by
  rw [execute_fst]
  unfold outcome answered
  rw [f.ofName?_name]
  cases (Statement.read query).mapError Failure.badQuery with
  | error failure => rfl
  | ok s =>
    dsimp only [bind, Except.bind]
    cases p.fetched s.table with
    | error failure => rfl
    | ok rows =>
      dsimp only
      cases s.checkFields e.settings rows with
      | error failure => rfl
      | ok u =>
        dsimp only [rendered, pure, Except.pure]
        cases f.render j.noted (s.answer (e.limitOr limit) rows) <;> rfl

theorem answered_eq_ok_iff {e : Engine} {p : Provider} {query : String} {limit : Option Float}
    {result : List Row} : e.answered p query limit = .ok result ↔
      ∃ s rows, e.Answers p query s rows ∧ s.answer (e.limitOr limit) rows = result := by
  unfold answered
  constructor
  · intro h
    obtain ⟨s, hread, h⟩ := Success.of_bind h
    obtain ⟨rows, hrows, h⟩ := Success.of_bind h
    obtain ⟨u, hcheck, h⟩ := Success.of_bind h
    obtain ⟨hfound, hfetched⟩ := fetched_eq_ok hrows
    exact ⟨s, rows, ⟨Success.of_mapError hread, hfound, hfetched, checkFields_eq_ok hcheck⟩,
      Except.ok.inj h⟩
  · rintro ⟨s, rows, ⟨hread, hfound, hfetched, hoffered⟩, rfl⟩
    have hrows : p.fetched s.table = .ok rows := by
      unfold Provider.fetched
      rw [hfound, hfetched]
      rfl
    have hcheck : s.checkFields e.settings rows = .ok () := by
      unfold Statement.checkFields
      rw [hoffered]
    rw [hread]
    dsimp only [bind, Except.bind, Except.mapError]
    rw [hrows]
    dsimp only
    rw [hcheck]
    rfl

/-- Two responses that agree in all but the format and the data. -/
structure Alike (r r' : Response) : Prop where
  status : r.status = r'.status
  count : r.count = r'.count
  error : r.error? = r'.error?

theorem isOk_render_of_alike {noted : Record.Noted} {f : Format} {result : List Row}
    (h : Alike (rendered noted f result) (rendered noted .json result)) :
    (f.render noted result).isOk := by
  have hstatus := h.status
  unfold rendered at hstatus
  cases hrender : f.render noted result with
  | ok data => rfl
  | error reason =>
    rw [hrender] at hstatus
    have hsame : "error" = "success" := hstatus
    exact absurd hsame (by decide)

theorem rendered_of_isOk {noted : Record.Noted} {f : Format} {result : List Row}
    (h : (f.render noted result).isOk) :
    ∃ data, rendered noted f result = .success f result.length data := by
  unfold rendered
  cases hrender : f.render noted result with
  | ok data => exact ⟨data, rfl⟩
  | error reason =>
    rw [hrender] at h
    cases h

end Engine
end TableQuery
