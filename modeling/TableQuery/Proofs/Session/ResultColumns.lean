import TableQuery.Proofs.Query.ColumnNames
import TableQuery.Proofs.Session.Outcome
import TableQuery.Proofs.Session.ShownRows

/-! # The columns of a result

Rows come from a projection or from groups. A projected row has the columns of the select
list; the row of a group has the group fields and behind them the columns of the calls, and
where there are calls it is not projected any more.
-/
namespace TableQuery

namespace Statement

/-- The names from which the columns of a result are taken. -/
def resultColumns (s : Statement) : List String :=
  if s.selection.calls.isEmpty then s.selection.columns
  else s.group ++ s.selection.calls.map (·.1)

/-- No column and no group field is named by a whole number. -/
structure Labelled (s : Statement) : Prop where
  selection : s.selection.Labelled
  group : ∀ field ∈ s.group, Record.index? field = none

theorem labelled_of_read {query : String} {s : Statement} (h : Statement.read query = .ok s) :
    s.Labelled := by
  unfold Statement.read at h
  obtain ⟨outline, -, h⟩ := Success.of_bind h
  obtain ⟨selection, hselection, h⟩ := Success.of_bind h
  obtain ⟨filter, -, h⟩ := Success.of_bind h
  obtain ⟨group, hgroup, h⟩ := Success.of_bind h
  obtain ⟨order, -, h⟩ := Success.of_bind h
  obtain ⟨limit, -, h⟩ := Success.of_bind h
  cases Except.ok.inj h
  refine ⟨Selection.labelled_of_read hselection, ?_⟩
  cases hoption : outline.group with
  | none =>
    rw [hoption] at hgroup
    cases hgroup
    simp
  | some text =>
    rw [hoption] at hgroup
    exact Query.index?_of_readGroup hgroup

end Statement

namespace Rows

/-- A projected row has the selected columns, each once, in the order of first occurrence. -/
theorem names_of_mem_project {s : Selection} (hs : s.Labelled) {rows : List Row} {row : Row}
    (h : row ∈ project s rows) :
    Record.names row = (s.columns.filter (· ≠ "__proto__")).eraseDups := by
  rw [project_eq_map] at h
  obtain ⟨source, -, rfl⟩ := List.mem_map.mp h
  have hfields : ∀ field ∈ s.columns.map (fun column => (column, s.valueOf source column)),
      Record.index? field.1 = none := by
    intro field hfield
    obtain ⟨column, hcolumn, rfl⟩ := List.mem_map.mp hfield
    exact hs.columns column hcolumn
  rw [Record.names_ofList hfields, List.map_map]
  exact congrArg (fun columns => (List.filter _ columns).eraseDups) (List.map_id _)

theorem names_ofMembers {fields : List String}
    (hfields : ∀ field ∈ fields, Record.index? field = none)
    {calls : List (String × Call)} (hcalls : ∀ entry ∈ calls, Record.index? entry.1 = none)
    (first : Row) (members : List Row) :
    Record.names (Group.ofMembers fields calls first members).row =
      ((fields ++ calls.map (·.1)).filter (· ≠ "__proto__")).eraseDups := by
  have hshared : (fields.map fun field => (field, first.lookup field)).map (·.1) = fields := by
    rw [List.map_map]
    exact List.map_id fields
  have hvalues : (callValues calls members).map (·.1) = calls.map (·.1) := by
    unfold callValues
    rw [List.map_map]
    rfl
  unfold Group.ofMembers
  dsimp only
  rw [Record.names_ofList]
  · rw [List.map_append, hshared, hvalues]
  · intro field hfield
    rcases List.mem_append.mp hfield with hfield | hfield
    · obtain ⟨name, hname, rfl⟩ := List.mem_map.mp hfield
      exact hfields name hname
    · obtain ⟨entry, hentry, rfl⟩ := List.mem_map.mp hfield
      exact hcalls entry hentry

end Rows

namespace Statement

theorem names_of_mem_groups {s : Statement} (hs : s.Labelled) {rows : List Row} {g : Rows.Group}
    (h : g ∈ s.groups rows) :
    Record.names g.row =
      ((s.group ++ s.selection.calls.map (·.1)).filter (· ≠ "__proto__")).eraseDups := by
  obtain ⟨first, -, members, rfl⟩ := mem_groups h
  exact Rows.names_ofMembers hs.group hs.selection.calls first members

theorem names_of_mem_found {s : Statement} (hs : s.Labelled) (hcalls : s.selection.calls ≠ [])
    {rows : List Row} {row : Row} (h : row ∈ s.found rows) :
    Record.names row =
      ((s.group ++ s.selection.calls.map (·.1)).filter (· ≠ "__proto__")).eraseDups := by
  have hgrouped : s.isGrouped = true := by simp [isGrouped, hcalls]
  obtain ⟨g, hg, rfl⟩ := exists_of_mem_found hgrouped h
  exact names_of_mem_groups hs hg

theorem names_of_mem_answer {s : Statement} (hs : s.Labelled) (hstar : s.selection.isStar = false)
    {limit : Float} {rows : List Row} {row : Row} (h : row ∈ s.answer limit rows) :
    Record.names row = (s.resultColumns.filter (· ≠ "__proto__")).eraseDups := by
  unfold answer projected at h
  unfold resultColumns
  by_cases hcalls : s.selection.calls.isEmpty = true
  · rw [if_pos (by simp [hstar, hcalls])] at h
    rw [if_pos hcalls]
    exact Rows.names_of_mem_project hs.selection h
  · rw [if_neg (by simp [hcalls])] at h
    rw [if_neg hcalls]
    exact names_of_mem_found hs (by simpa using hcalls) ((Limit.cut_sublist _ _).subset h)

theorem ordered_of_mem_answer {s : Statement} (hstar : s.selection.isStar = false) {limit : Float}
    {rows : List Row} {row : Row} (h : row ∈ s.answer limit rows) : Record.Ordered row := by
  rw [answer_eq_map] at h
  obtain ⟨found, hfound, rfl⟩ := List.mem_map.mp h
  unfold shown
  by_cases hprojected : s.isProjected = true
  · rw [if_pos hprojected]
    exact Record.ordered_ofList _
  · have hcalls : s.selection.calls ≠ [] := by
      rintro hnone
      exact hprojected (by simp [isProjected, hstar, hnone])
    have hgrouped : s.isGrouped = true := by simp [isGrouped, hcalls]
    obtain ⟨g, hg, rfl⟩ := exists_of_mem_found hgrouped ((Limit.cut_sublist _ _).subset hfound)
    obtain ⟨first, -, members, rfl⟩ := mem_groups hg
    rw [if_neg hprojected]
    exact Record.ordered_ofList _

end Statement

namespace Engine

/-- Rows that are returned for a select list of columns have, apart from `__proto__`, exactly
the columns of the result. -/
theorem names_of_execute {e : Engine} {p : Provider} {query name : String}
    {limit : Option Float} {j : Journal} {data : List PlainRow}
    (h : ((e.execute p query limit name).run j).1.jsonRows? = some data) :
    ∃ s, Statement.read query = .ok s ∧ (s.selection.isStar = false → ∀ row ∈ data,
      (Record.names row).filter (· ≠ "__proto__") =
        (s.resultColumns.filter (· ≠ "__proto__")).eraseDups) := by
  obtain ⟨s, rows, hanswers, rfl⟩ := answers_of_jsonRows? h
  refine ⟨s, hanswers.read, fun hstar row hrow => ?_⟩
  obtain ⟨source, hsource, rfl⟩ := List.mem_map.mp hrow
  have hlabelled := Statement.labelled_of_read hanswers.read
  have hnames := Statement.names_of_mem_answer hlabelled hstar hsource
  rw [Row.names_toPlain (Statement.ordered_of_mem_answer hstar hsource), hnames]
  refine List.filter_eq_self.mpr fun column hcolumn => ?_
  exact (List.mem_filter.mp (List.mem_eraseDups.mp hcolumn)).2

theorem names_of_execute_counted :
    ∃ data, (Response.overRow [("g", .string "x")]
        "SELECT COUNT(*), g FROM t GROUP BY g").jsonRows? = some data ∧
      ∃ s, Statement.read "SELECT COUNT(*), g FROM t GROUP BY g" = .ok s ∧
        (s.selection.isStar = false → ∀ row ∈ data, (Record.names row).filter (· ≠ "__proto__") =
          (s.resultColumns.filter (· ≠ "__proto__")).eraseDups) := by
  have hsome : (Response.overRow [("g", .string "x")]
      "SELECT COUNT(*), g FROM t GROUP BY g").jsonRows?.isSome = true := by decide +kernel
  obtain ⟨data, hdata⟩ := Option.isSome_iff_exists.mp hsome
  exact ⟨data, hdata, names_of_execute hdata⟩

/-- A group has its field in front, also where the select list has the call in front. -/
theorem names_ne_columns : ¬ ∀ (e : Engine) (p : Provider) (query name : String)
    (limit : Option Float) (j : Journal) (data : List PlainRow) (s : Statement),
    ((e.execute p query limit name).run j).1.jsonRows? = some data →
    Statement.read query = .ok s → s.selection.isStar = false →
    ∀ row ∈ data, Record.names row = s.selection.columns.eraseDups := by
  intro h
  have hnames : (Response.overRow [("g", .string "x")]
      "SELECT COUNT(*), g FROM t GROUP BY g").jsonRows?.map (·.map Record.names) =
        some [["g", "COUNT(*)"]] := by
    decide +kernel
  have hcolumns : (Statement.read "SELECT COUNT(*), g FROM t GROUP BY g").toOption.map
      (fun s => (s.selection.isStar, s.selection.columns)) = some (false, ["COUNT(*)", "g"]) := by
    decide +kernel
  obtain ⟨data, hdata, hnames⟩ := Option.map_eq_some_iff.mp hnames
  obtain ⟨row, hrow, hname⟩ : ∃ row ∈ data, Record.names row = ["g", "COUNT(*)"] :=
    List.mem_map.mp (hnames ▸ List.mem_singleton_self _)
  obtain ⟨s, rows, hanswers, -⟩ := answers_of_jsonRows? hdata
  rw [hanswers.read] at hcolumns
  obtain ⟨hstar, hcolumns⟩ := Prod.mk.inj (Option.some.inj hcolumns)
  have hall := h _ _ _ _ _ _ _ _ hdata hanswers.read hstar row hrow
  rw [hname, hcolumns] at hall
  exact absurd hall (by decide +kernel)

end Engine
end TableQuery
