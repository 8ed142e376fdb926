import TableQuery.Proofs.Catalog.AllRows
import TableQuery.Proofs.Text.FieldPath
import TableQuery.Rows.Columns

/-! # The values of columns

A column is read from the field of its name where the row has one, also where it stands for a
path. A path without points names the field itself, so a row whose names have no points shows
under each path the value that the path leads to.
-/
namespace TableQuery

namespace Row

theorem resolve?_of_noPoint {name : String} (h : '.' ∉ name.toList) (row : Row) :
    row.resolve? name = Record.get? row name := by
  unfold resolve?
  rw [Text.pathSegments_of_notMem h, List.map_singleton, String.ofList_toList, Value.descend?]
  cases Record.get? row name <;> rfl

theorem lookup_of_noPoint {name : String} (h : '.' ∉ name.toList) (row : Row) :
    row.lookup name = (Record.get? row name).getD .null := by
  unfold lookup
  rw [resolve?_of_noPoint h]

theorem column_of_get? {row : Row} {name : String} {v : Value} (h : Record.get? row name = some v) :
    row.column name = v := by
  unfold column
  rw [h, Option.getD_some]

/-- A column is the value at its path, unless a field of its whole name hides that value. -/
theorem column_eq_lookup_iff {row : Row} {name : String} :
    row.column name = row.lookup name ↔
      ∀ v, Record.get? row name = some v → v = row.lookup name := by
  unfold column
  cases Record.get? row name <;> simp

theorem column_eq_lookup {row : Row} {name : String}
    (h : '.' ∈ name.toList → Record.get? row name = none) : row.column name = row.lookup name := by
  rw [column_eq_lookup_iff]
  intro v hv
  by_cases hpoint : '.' ∈ name.toList
  · rw [h hpoint] at hv
    cases hv
  · rw [lookup_of_noPoint hpoint, hv, Option.getD_some]

theorem Proper.get?_proto {row : Row} (h : row.Proper) : Record.get? row "__proto__" = none :=
  Record.get?_eq_none_iff.mpr (Value.proper_map_iff.mp h).1.noProto

theorem Proper.lookup_proto {row : Row} (h : row.Proper) : row.lookup "__proto__" = .null := by
  rw [lookup_of_noPoint (by decide), h.get?_proto, Option.getD_none]

theorem column_proto {row : Row} (h : Record.get? row "__proto__" = none) :
    row.column "__proto__" = .null := by
  rw [column_eq_lookup (fun _ => h), lookup_of_noPoint (by decide), h, Option.getD_none]

def NoPoints (row : Row) : Prop := ∀ name ∈ Record.names row, '.' ∉ name.toList

instance (row : Row) : Decidable row.NoPoints :=
  inferInstanceAs (Decidable (∀ name ∈ Record.names row, '.' ∉ name.toList))

theorem NoPoints.column_eq_lookup {row : Row} (h : row.NoPoints) (name : String) :
    row.column name = row.lookup name :=
  Row.column_eq_lookup fun hpoint => Record.get?_eq_none_iff.mpr fun hname => h name hname hpoint

end Row

namespace Selection

theorem valueOf_proper (s : Selection) {row : Row} (h : row.Proper) (column : String) :
    (s.valueOf row column).Proper := by
  unfold valueOf
  split
  · cases hget : Record.get? row column with
    | none => exact trivial
    | some v => exact Value.Proper.get? h hget
  · split
    · split
      · exact h.column column
      · exact h.column _
    · exact h.column column

theorem valueOf_of_noAlias {s : Selection} (hcalls : s.calls = []) {column : String}
    (halias : s.aliases.lookup column = none) (row : Row) :
    s.valueOf row column = row.column column := by
  unfold valueOf
  rw [hcalls, halias]
  rfl

/-- Without calls, a field is read by its name, also where an alias has the name. -/
theorem valueOf_of_get? {s : Selection} (hcalls : s.calls = []) {row : Row} {column : String}
    {v : Value} (h : Record.get? row column = some v) : s.valueOf row column = v := by
  have hhas : Record.has row column = true := Option.isSome_of_eq_some h
  cases halias : s.aliases.lookup column with
  | none => rw [valueOf_of_noAlias hcalls halias, Row.column_of_get? h]
  | some source =>
    unfold valueOf
    rw [hcalls, halias]
    exact (if_pos hhas).trans (Row.column_of_get? h)

/-- Without calls, an alias reads its path where the row has no field of its name. -/
theorem valueOf_of_alias {s : Selection} (hcalls : s.calls = []) {row : Row} {name source : String}
    (halias : s.aliases.lookup name = some source) (hname : Record.get? row name = none) :
    s.valueOf row name = row.column source := by
  have hhas : ¬ Record.has row name = true :=
    fun hhas => Record.get?_eq_none_iff.mp hname (Record.has_iff.mp hhas)
  unfold valueOf
  rw [hcalls, halias]
  exact if_neg hhas

end Selection
end TableQuery
