import TableQuery.Proofs.Session.Outcome
import TableQuery.Proofs.Session.ResponseFields
import TableQuery.Proofs.Session.ShownRows

/-! # Responses and what they ask for

Every query is answered with a whole success or a whole failure. The rows of a table are asked
for once at most, and only when the query is read and the table is there; no stage makes more
rows than it is given.
-/
namespace TableQuery

namespace Rows

theorem length_keepFirst_le {α : Type} (entries : List (String × α)) :
    (keepFirst [] entries).length ≤ entries.length := (keepFirst_sublist [] entries).length_le

theorem length_groups_le (fields : List String) (calls : List (String × Call)) (rows : List Row) :
    (groups fields calls rows).length ≤ rows.length := by
  have hfirst := length_keepFirst_le (rows.map fun row => (groupKey fields row, row))
  rw [List.length_map] at hfirst
  rwa [groups, List.length_map]

theorem length_whole_le (calls : List (String × Call)) (rows : List Row) :
    (whole calls rows).length ≤ rows.length := by
  cases rows with
  | nil => exact Nat.le_refl 0
  | cons first rest => exact Nat.succ_le_succ (Nat.zero_le _)

theorem length_distinct_le (s : Selection) (rows : List Row) :
    (distinct s rows).length ≤ rows.length := by
  have hfirst := length_keepFirst_le (rows.map fun row => (distinctKey s row, row))
  rw [List.length_map] at hfirst
  rwa [distinct, List.length_map]

end Rows

namespace Statement

theorem length_filtered_le (s : Statement) (rows : List Row) :
    (s.filtered rows).length ≤ rows.length := List.length_filter_le _ _

theorem length_groups_le (s : Statement) (rows : List Row) :
    (s.groups rows).length ≤ rows.length := by
  unfold groups
  split
  · exact Rows.length_whole_le _ _
  · exact Rows.length_groups_le _ _ _

theorem length_distinctRows_le (s : Statement) (rows : List Row) :
    (s.distinctRows rows).length ≤ rows.length := by
  unfold distinctRows
  split
  · exact Rows.length_distinct_le _ _
  · exact Nat.le_refl _

theorem length_ordered {α : Type} (s : Statement) (read : α → String → Value) (rows : List α) :
    (s.ordered read rows).length = rows.length := (Rows.sort_perm _ _ _).length_eq

theorem length_found_le (s : Statement) (rows : List Row) :
    (s.found rows).length ≤ rows.length := by
  have hfiltered := s.length_filtered_le rows
  unfold found
  dsimp only
  split
  · rw [List.length_map, length_ordered]
    exact Nat.le_trans (s.length_groups_le _) hfiltered
  · rw [length_ordered]
    exact Nat.le_trans (s.length_distinctRows_le _) hfiltered

theorem length_answer_le (s : Statement) (limit : Float) (rows : List Row) :
    (s.answer limit rows).length ≤ rows.length := by
  rw [answer_eq_map, List.length_map]
  exact Nat.le_trans (Limit.cut_sublist _ _).length_le (s.length_found_le rows)

end Statement

namespace Format

theorem name_of_ofName? {name : String} {f : Format} (h : ofName? name = some f) :
    f.name ∈ names ∧ f.name = Text.lower name := by
  have hname := List.find?_some h
  exact ⟨List.mem_map_of_mem (List.mem_of_find?_eq_some h), eq_of_beq hname⟩

theorem length_of_render {noted : Record.Noted} {f : Format} {result : List Row}
    {rows : List PlainRow} (h : f.render noted result = .ok (.rows rows)) :
    rows.length = result.length := by
  cases f with
  | json =>
    cases h
    exact List.length_map ..
  | csv =>
    obtain ⟨text, -, htext⟩ := Success.of_map h
    cases htext
  | table =>
    obtain ⟨text, -, htext⟩ := Success.of_map h
    cases htext

end Format

namespace Engine

theorem bind_snd {α β : Type} (x : ExceptT Failure (StateM Journal) α)
    (f : α → ExceptT Failure (StateM Journal) β) (j : Journal) :
    ((x >>= f).run.run j).2 =
      match (x.run.run j).1 with
      | .ok a => ((f a).run.run (x.run.run j).2).2
      | .error _ => (x.run.run j).2 := by
  change ((ExceptT.bindCont f (x.run.run j).1).run (x.run.run j).2).2 = _
  cases (x.run.run j).1 <;> rfl

def asked (p : Provider) (query format : String) : List String :=
  match Format.ofName? format, Statement.parse query with
  | some _, .ok s =>
    match p.hasTable s.table with
    | .ok true => [s.table]
    | _ => []
  | _, _ => []

theorem fetched_fetch (p : Provider) (table : String) (j : Journal) :
    ((fetch p table).run.run j).2.fetched = j.fetched ++
      match p.hasTable table with
      | .ok true => [table]
      | _ => [] := by
  unfold fetch
  cases p.hasTable table with
  | error reason => exact (List.append_nil _).symm
  | ok found =>
    cases found with
    | false => cases p.sortedNames <;> exact (List.append_nil _).symm
    | true => cases p.rows table <;> rfl

theorem fetched_run (e : Engine) (p : Provider) (query : String) (limit : Float) (format : String)
    (j : Journal) :
    ((e.run p query limit format).run.run j).2.fetched = j.fetched ++ asked p query format := by
  unfold run asked
  cases Format.ofName? format with
  | none => exact (List.append_nil _).symm
  | some format =>
    simp only [bind_snd, lift_fst, lift_snd]
    cases Statement.parse query with
    | error why => exact (List.append_nil _).symm
    | ok s =>
      have hfetched := fetched_fetch p s.table j
      dsimp only [Except.mapError]
      rw [← hfetched]
      split
      · split
        · split
          · split <;> rfl
          · rfl
        · rfl
      · rfl

theorem fetched_log (entry : LogEntry) (j : Journal) : (j.log entry).fetched = j.fetched := by
  unfold Journal.log
  split <;> rfl

theorem fetched_execute (e : Engine) (p : Provider) (query : String) (limit : Option Float)
    (format : String) (j : Journal) :
    ((e.execute p query limit format).run j).2.fetched =
      j.fetched ++ asked p query format := by
  rw [← fetched_run e p query (e.limitOr limit) format j]
  unfold execute
  change (StateT.run (bind (e.run p query (e.limitOr limit) format).run _) j).2.fetched = _
  generalize e.run p query (e.limitOr limit) format = answer
  rw [StateT.run_bind]
  generalize StateT.run (ExceptT.run answer) j = found
  obtain ⟨result, journal⟩ := found
  cases result <;> exact fetched_log _ journal

theorem source_of_read {query : String} {s : Statement} (h : Statement.read query = .ok s) :
    ∃ outline, Outline.ofQuery query = .ok outline ∧ s.table = outline.source := by
  unfold Statement.read at h
  obtain ⟨outline, houtline, h⟩ := Success.of_bind h
  obtain ⟨selection, -, h⟩ := Success.of_bind h
  obtain ⟨filter, -, h⟩ := Success.of_bind h
  obtain ⟨group, -, h⟩ := Success.of_bind h
  obtain ⟨order, -, h⟩ := Success.of_bind h
  obtain ⟨limit, -, h⟩ := Success.of_bind h
  cases Except.ok.inj h
  exact ⟨outline, houtline, rfl⟩

/-- How the tables that are asked for depend on the query. -/
structure AsksFor (p : Provider) (query format : String) (tables : List String) : Prop where
  once : tables.length ≤ 1
  source : ∀ table ∈ tables, ∃ outline, Outline.ofQuery query = .ok outline ∧
    table = outline.source
  known : Format.ofName? format = none → tables = []
  parsed : ∀ why, Statement.parse query = .error why → tables = []
  there : ∀ s, Statement.parse query = .ok s → p.hasTable s.table ≠ .ok true → tables = []

theorem asksFor_asked (p : Provider) (query format : String) :
    AsksFor p query format (asked p query format) := by
  have nothing : ∀ {tables : List String}, tables = [] → AsksFor p query format tables := by
    rintro _ rfl
    exact ⟨Nat.zero_le 1, by simp, fun _ => rfl, fun _ _ => rfl, fun _ _ _ => rfl⟩
  unfold asked
  cases hformat : Format.ofName? format with
  | none => exact nothing rfl
  | some f =>
    cases hparse : Statement.parse query with
    | error why => exact nothing rfl
    | ok s =>
      dsimp only
      split
      · next hthere =>
        rw [Statement.parse_eq_read] at hparse
        obtain ⟨outline, houtline, hsource⟩ := source_of_read (Success.of_mapError hparse)
        refine ⟨Nat.le_refl 1, ?_, by simp [hformat], by simp [Statement.parse_eq_read, hparse], ?_⟩
        · rintro table htable
          rw [List.mem_singleton.mp htable]
          exact ⟨outline, houtline, hsource⟩
        · intro s' hs' habsent
          rw [Statement.parse_eq_read, hparse] at hs'
          cases hs'
          exact absurd hthere habsent
      · exact nothing rfl

/-- A success, in the format asked for: `count` rows are rendered, and the table has no fewer. -/
structure Succeeds (noted : Record.Noted) (p : Provider) (query format : String)
    (r : Response) : Prop where
  status : r.status = "success"
  formatName : r.formatName ∈ Format.names ∧ r.formatName = Text.lower format
  error : r.error? = none
  rendered : ∃ f result data, Format.ofName? format = some f ∧
    f.render noted result = .ok data ∧ r.data? = some data ∧ r.count = result.length
  plain : ∀ rows, r.data? = some (.rows rows) → r.count = rows.length
  bounded : ∃ outline rows, Outline.ofQuery query = .ok outline ∧
    p.rows outline.source = .ok rows ∧ r.count ≤ rows.length

/-- A failure, with the format as it was given. -/
structure Fails (format : String) (r : Response) : Prop where
  status : r.status = "error"
  formatName : r.formatName = format
  count : r.count = 0
  data : r.data? = none
  error : ∃ text, r.error? = some text

/-- Every query is answered with a success or a failure, and asks for the rows of its table once
at most. -/
theorem execute_responds (e : Engine) (p : Provider) (query : String) (limit : Option Float)
    (format : String) (j : Journal) :
    (Succeeds j.noted p query format ((e.execute p query limit format).run j).1 ∨
      Fails format ((e.execute p query limit format).run j).1) ∧
    ∃ tables, ((e.execute p query limit format).run j).2.fetched = j.fetched ++ tables ∧
      AsksFor p query format tables := by
  refine ⟨?_, _, fetched_execute e p query limit format j, asksFor_asked p query format⟩
  rw [execute_fst]
  cases ho : e.outcome j.noted p query (e.limitOr limit) format with
  | error failure => exact .inr ⟨rfl, rfl, rfl, rfl, _, rfl⟩
  | ok found =>
    obtain ⟨f, count, data⟩ := found
    obtain ⟨hname, s, rows, hanswers, rfl, hrender⟩ := answers_of_outcome ho
    obtain ⟨outline, houtline, hsource⟩ := source_of_read hanswers.read
    refine .inl ⟨rfl, Format.name_of_ofName? hname, rfl, ⟨f, _, data, hname, hrender, rfl, rfl⟩,
      ?_, outline, rows, houtline, hsource ▸ hanswers.fetched, s.length_answer_le _ rows⟩
    intro plainRows hplain
    cases hplain
    exact (Format.length_of_render hrender).symm

end Engine
end TableQuery
