import TableQuery.Proofs.Catalog.AllRows
import TableQuery.Proofs.Data.Success
import TableQuery.Proofs.Filter.ParsedFilter
import TableQuery.Proofs.Session.Evaluation

/-! # What a query is answered with

Of the journal, the answer to a query depends only on what was noted on the records that all
others inherit from: it is read off this, the query text, the provider, the limit and the
format. A success comes from a statement that is read, a table that is there, and columns that
its rows offer.
-/
namespace TableQuery

/-- A statement is parsed where it is read, and otherwise the query has the fault. -/
theorem Statement.parse_eq_read (query : String) : parse query = (read query).mapError .fault := by
  unfold parse read
  cases Outline.ofQuery query with
  | error fault => rfl
  | ok outline =>
    dsimp only [bind, Except.bind, Except.mapError]
    cases Selection.read outline.select.toList with
    | error fault => rfl
    | ok selection =>
      have hfilter : optional .all Filter.parse outline.filter =
          (optional .all Filter.read outline.filter).mapError .fault := by
        cases outline.filter with
        | none => rfl
        | some text => exact Filter.parse_eq_read text.toList
      dsimp only
      rw [hfilter]
      cases optional .all Filter.read outline.filter with
      | error fault => rfl
      | ok filter =>
        dsimp only [Except.mapError]
        cases optional [] Query.readGroup outline.group with
        | error fault => rfl
        | ok group =>
          dsimp only
          cases optional [] SortKey.readList outline.order with
          | error fault => rfl
          | ok order =>
            dsimp only
            cases optional none (fun cs => (Query.readLimit cs).map some) outline.limit <;> rfl

/-- The rows of a table, or why there are none to answer with. -/
def Provider.fetched (p : Provider) (table : String) : Except Failure (List Row) :=
  match p.hasTable table with
  | .error reason => .error (.unexpected reason)
  | .ok false =>
    match p.sortedNames with
    | .error reason => .error (.unexpected reason)
    | .ok names => .error (.unknownTable table names)
  | .ok true => (p.rows table).mapError (.notLoaded table)

namespace Engine

def limitOr (e : Engine) (limit : Option Float) : Float :=
  limit.getD (Number.ofNat e.settings.defaultLimit)

def outcome (noted : Record.Noted) (e : Engine) (p : Provider) (query : String) (limit : Float)
    (format : String) : Except Failure (Format × Nat × Rendered) := do
  let some format := Format.ofName? format | throw (.unknownFormat format)
  let statement ← (Statement.read query).mapError Failure.badQuery
  let rows ← p.fetched statement.table
  statement.checkFields e.settings rows
  let result := statement.answer limit rows
  let data ← (format.render noted result).mapError Failure.notRendered
  pure (format, result.length, data)

theorem fetch_fst (p : Provider) (table : String) (j : Journal) :
    ((fetch p table).run.run j).1 = p.fetched table := by
  unfold fetch Provider.fetched
  cases p.hasTable table with
  | error reason => rfl
  | ok found =>
    cases found with
    | false => cases p.sortedNames <;> rfl
    | true => cases p.rows table <;> rfl

theorem bind_fst {α β : Type} (x : ExceptT Failure (StateM Journal) α)
    (f : α → ExceptT Failure (StateM Journal) β) (j : Journal) :
    ((x >>= f).run.run j).1 =
      match (x.run.run j).1 with
      | .ok a => ((f a).run.run (x.run.run j).2).1
      | .error failure => .error failure := by
  change ((ExceptT.bindCont f (x.run.run j).1).run (x.run.run j).2).1 = _
  cases (x.run.run j).1 <;> rfl

theorem noted_fetch (p : Provider) (table : String) (j : Journal) :
    ((fetch p table).run.run j).2.noted = j.noted := by
  unfold fetch
  cases p.hasTable table with
  | error reason => rfl
  | ok found =>
    cases found with
    | false => cases p.sortedNames <;> rfl
    | true => cases p.rows table <;> rfl

theorem render_fst (format : Format) (result : List Row) (j : Journal) :
    ((render format result).run.run j).1 =
      (format.render j.noted result).mapError Failure.notRendered := rfl

theorem lift_fst {α : Type} (x : Except Failure α) (j : Journal) :
    ((liftM x : ExceptT Failure (StateM Journal) α).run.run j).1 = x := rfl

theorem lift_snd {α : Type} (x : Except Failure α) (j : Journal) :
    ((liftM x : ExceptT Failure (StateM Journal) α).run.run j).2 = j := rfl

theorem run_fst (e : Engine) (p : Provider) (query : String) (limit : Float) (format : String)
    (j : Journal) :
    ((e.run p query limit format).run.run j).1 = e.outcome j.noted p query limit format := by
  unfold run outcome
  cases Format.ofName? format with
  | none => rfl
  | some format =>
    simp only [bind_fst, lift_fst, lift_snd, fetch_fst, render_fst, noted_fetch,
      Statement.parse_eq_read, Statement.evaluate_eq_ok]
    cases Statement.read query with
    | error fault => rfl
    | ok s =>
      dsimp only [bind, Except.bind, Except.mapError]
      cases p.fetched s.table with
      | error failure => rfl
      | ok rows =>
        dsimp only
        cases s.checkFields e.settings rows with
        | error failure => rfl
        | ok u =>
          dsimp only
          cases format.render j.noted (s.answer limit rows) <;> rfl

theorem execute_fst (e : Engine) (p : Provider) (query : String) (limit : Option Float)
    (format : String) (j : Journal) :
    ((e.execute p query limit format).run j).1 =
      match e.outcome j.noted p query (e.limitOr limit) format with
      | .ok (format, count, data) => .success format count data
      | .error failure => .failure format failure := by
  rw [← run_fst e p query _ format j]
  unfold execute
  change (StateT.run (bind (e.run p query (e.limitOr limit) format).run _) j).1 = _
  generalize e.run p query (e.limitOr limit) format = answer
  rw [StateT.run_bind]
  generalize StateT.run (ExceptT.run answer) j = found
  obtain ⟨result, journal⟩ := found
  cases result <;> rfl

theorem outcome_of_unknown {noted : Record.Noted} {e : Engine} {p : Provider}
    {query name : String} {limit : Float} (hformat : Format.ofName? name = none) :
    e.outcome noted p query limit name = .error (.unknownFormat name) := by
  unfold outcome
  rw [hformat]
  rfl

theorem outcome_of_read {noted : Record.Noted} {e : Engine} {p : Provider}
    {query name : String} {limit : Float} {format : Format} {s : Statement}
    (hformat : Format.ofName? name = some format) (hread : Statement.read query = .ok s) :
    e.outcome noted p query limit name = (p.fetched s.table).bind fun rows =>
      (s.checkFields e.settings rows).bind fun _ =>
        ((format.render noted (s.answer limit rows)).mapError Failure.notRendered).bind fun data =>
          .ok (format, (s.answer limit rows).length, data) := by
  unfold outcome
  rw [hformat, hread]
  rfl

theorem fetched_eq_ok {p : Provider} {table : String} {rows : List Row}
    (h : p.fetched table = .ok rows) : p.hasTable table = .ok true ∧ p.rows table = .ok rows := by
  unfold Provider.fetched at h
  cases hf : p.hasTable table with
  | error reason =>
    rw [hf] at h
    cases h
  | ok found =>
    rw [hf] at h
    cases found with
    | false => cases hn : p.sortedNames <;> simp [hn] at h
    | true =>
      cases hr : p.rows table with
      | error reason =>
        rw [hr] at h
        cases h
      | ok rows' =>
        rw [hr] at h
        cases h
        exact ⟨rfl, rfl⟩

/-- The format of a name shows rows alike in two journals: as plain data, or because the same was
noted in both. -/
def ShownAlike (name : String) (j j' : Journal) : Prop :=
  Format.ofName? name = some .json ∨ j.noted = j'.noted

theorem outcome_of_shownAlike {name : String} {j j' : Journal} (h : ShownAlike name j j')
    (e : Engine) (p : Provider) (query : String) (limit : Float) :
    e.outcome j.noted p query limit name = e.outcome j'.noted p query limit name := by
  rcases h with hformat | hnoted
  · unfold outcome
    rw [hformat]
    rfl
  · rw [hnoted]

/-- Two queries are answered alike where their statements ask for one table and offer and answer
the same for its rows, and the answers are shown alike. -/
theorem execute_congr {e : Engine} {p : Provider} {query query' name : String}
    {limit : Option Float} {j j' : Journal} {s s' : Statement}
    (hread : Statement.read query = .ok s) (hread' : Statement.read query' = .ok s')
    (hshown : ShownAlike name j j') (htable : s'.table = s.table)
    (hrows : ∀ rows, p.rows s.table = .ok rows →
      s'.checkFields e.settings rows = s.checkFields e.settings rows ∧
        s'.answer (e.limitOr limit) rows = s.answer (e.limitOr limit) rows) :
    ((e.execute p query limit name).run j).1 = ((e.execute p query' limit name).run j').1 := by
  suffices houtcome : e.outcome j.noted p query (e.limitOr limit) name =
      e.outcome j.noted p query' (e.limitOr limit) name by
    rw [execute_fst, execute_fst, houtcome, outcome_of_shownAlike hshown]
  cases hformat : Format.ofName? name with
  | none => rw [outcome_of_unknown hformat, outcome_of_unknown hformat]
  | some format =>
    rw [outcome_of_read hformat hread, outcome_of_read hformat hread', htable]
    cases hfetched : p.fetched s.table with
    | error failure => dsimp only [Except.bind]
    | ok rows =>
      obtain ⟨hcheck, hanswer⟩ := hrows rows (fetched_eq_ok hfetched).2
      dsimp only [Except.bind]
      rw [hcheck, hanswer]

/-- A statement that a query writes, and the rows that it is answered from. -/
structure Answers (e : Engine) (p : Provider) (query : String) (s : Statement)
    (rows : List Row) : Prop where
  read : Statement.read query = .ok s
  found : p.hasTable s.table = .ok true
  fetched : p.rows s.table = .ok rows
  offered : s.missingField? e.settings rows = none

theorem checkFields_eq_ok {settings : Settings} {s : Statement} {rows : List Row} {u : Unit}
    (h : s.checkFields settings rows = .ok u) : s.missingField? settings rows = none := by
  unfold Statement.checkFields at h
  cases hm : s.missingField? settings rows with
  | none => rfl
  | some field =>
    rw [hm] at h
    cases h

/-- A success holds the rendered answer of a statement to the rows of its table. -/
theorem answers_of_outcome {noted : Record.Noted} {e : Engine} {p : Provider} {query : String}
    {limit : Float} {name : String} {format : Format} {count : Nat} {data : Rendered}
    (h : e.outcome noted p query limit name = .ok (format, count, data)) :
    Format.ofName? name = some format ∧ ∃ s rows, e.Answers p query s rows ∧
      count = (s.answer limit rows).length ∧
        format.render noted (s.answer limit rows) = .ok data := by
  unfold outcome at h
  cases hname : Format.ofName? name with
  | none =>
    rw [hname] at h
    cases h
  | some found =>
    rw [hname] at h
    obtain ⟨s, hread, h⟩ := Success.of_bind h
    obtain ⟨rows, hrows, h⟩ := Success.of_bind h
    obtain ⟨u, hcheck, h⟩ := Success.of_bind h
    obtain ⟨rendered, hrender, h⟩ := Success.of_bind h
    cases Except.ok.inj h
    obtain ⟨hfound, hfetched⟩ := fetched_eq_ok hrows
    have hanswers : e.Answers p query s rows :=
      ⟨Success.of_mapError hread, hfound, hfetched, checkFields_eq_ok hcheck⟩
    exact ⟨rfl, s, rows, hanswers, rfl, Success.of_mapError hrender⟩

end Engine

def Response.jsonRows? : Response → Option (List PlainRow)
  | .success .json _ (.rows rows) => some rows
  | _ => none

theorem Engine.answers_of_jsonRows? {e : Engine} {p : Provider} {query name : String}
    {limit : Option Float} {j : Journal} {data : List PlainRow}
    (h : ((e.execute p query limit name).run j).1.jsonRows? = some data) :
    ∃ s rows, e.Answers p query s rows ∧
      data = (s.answer (e.limitOr limit) rows).map Row.toPlain := by
  rw [execute_fst] at h
  cases ho : e.outcome j.noted p query (e.limitOr limit) name with
  | error failure =>
    rw [ho] at h
    cases h
  | ok result =>
    obtain ⟨format, count, rendered⟩ := result
    rw [ho] at h
    obtain ⟨-, s, rows, hanswers, -, hrender⟩ := answers_of_outcome ho
    unfold Response.jsonRows? at h
    split at h
    · next hsuccess =>
      cases hsuccess
      cases h
      cases Except.ok.inj hrender
      exact ⟨s, rows, hanswers, rfl⟩
    · cases h

namespace Statement

/-- Whether two statements without filters agree in all clauses but the limit, which the first
one does not have. -/
def agrees (s t : Statement) : Bool :=
  (s.filter matches .all) && (t.filter matches .all) &&
    decide (s.selection = t.selection ∧ s.table = t.table ∧ s.group = t.group ∧
      s.order = t.order ∧ s.limit = none)

theorem read_of_agrees {query : String} {t : Statement}
    (h : (read query).toOption.any (agrees · t) = true) :
    read query = .ok { t with limit := none } := by
  cases hread : read query with
  | error fault =>
    rw [hread] at h
    cases h
  | ok s =>
    rw [hread] at h
    obtain ⟨selection, table, filter, group, order, limit⟩ := s
    obtain ⟨selection', table', filter', group', order', limit'⟩ := t
    simp only [Except.toOption, Option.any_some, agrees, Bool.and_eq_true,
      decide_eq_true_eq] at h
    obtain ⟨⟨hfilter, hfilter'⟩, rfl, rfl, rfl, rfl, rfl⟩ := h
    cases filter with
    | all =>
      cases filter' with
      | all => rfl
      | chain first rest => cases hfilter'
    | chain first rest => cases hfilter

end Statement

def Provider.ofRow (row : PlainRow) : Provider := (Catalog.mk [("t", ⟨none, [row]⟩)]).provider

/-- What an engine with default settings answers to a query over one row. -/
def Response.overRow (row : PlainRow) (query : String) : Response :=
  ((Engine.mk {}).execute (.ofRow row) query none "json" |>.run {}).1

/-- What an engine with default settings answers to a query over the rows of a table `t`. -/
def Response.overRows (rows : List PlainRow) (query : String) : Response :=
  ((Engine.mk {}).execute (.ofRows rows) query none "json" |>.run {}).1

end TableQuery
