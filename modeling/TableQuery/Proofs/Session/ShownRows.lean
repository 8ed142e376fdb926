import TableQuery.Proofs.Rows.FirstOccurrences
import TableQuery.Proofs.Sorting.Permutation
import TableQuery.Session.Execute

/-! # Rows as they are shown

The rows of an answer are those found, cut to the limit, and each then shown by its selected
columns or as it is. The limit keeps a prefix and looks at no row.
-/
namespace TableQuery

namespace Limit

theorem cut_sublist {α : Type} (limit : Option Float) (rows : List α) :
    (cut limit rows).Sublist rows := by
  unfold cut
  split
  · exact List.Sublist.refl _
  · split
    · exact List.Sublist.refl _
    · exact List.take_sublist _ _

theorem cut_map {α β : Type} (f : α → β) (limit : Option Float) (rows : List α) :
    cut limit (rows.map f) = (cut limit rows).map f := by
  unfold cut
  split
  · rfl
  · split
    · rfl
    · exact List.map_take.symm

end Limit

namespace Statement

/-- Whether the result has the selected columns of its rows only. -/
def isProjected (s : Statement) : Bool := !s.selection.isStar && s.selection.calls.isEmpty

def shown (s : Statement) (row : Row) : Row :=
  if s.isProjected then
    Record.ofList (s.selection.columns.map fun column => (column, s.selection.valueOf row column))
  else row

theorem answer_eq_map (s : Statement) (limit : Float) (rows : List Row) :
    s.answer limit rows =
      (Limit.cut (Limit.effective s.limit limit) (s.found rows)).map s.shown := by
  unfold answer projected shown isProjected
  split
  · exact Rows.project_eq_map _ _
  · exact (List.map_id _).symm

theorem calls_of_isProjected {s : Statement} (h : s.isProjected = true) :
    s.selection.calls = [] := by
  unfold isProjected at h
  rw [Bool.and_eq_true] at h
  exact List.isEmpty_iff.mp h.2

theorem get?_shown {s : Statement} (h : s.isProjected = true) {column : String}
    (hcolumn : column ∈ s.selection.columns) (hproto : column ≠ "__proto__") (row : Row) :
    Record.get? (s.shown row) column = some (s.selection.valueOf row column) := by
  unfold shown
  rw [if_pos h, Record.get?_ofList_of_names _ hcolumn hproto]

theorem mem_ordered {α : Type} {s : Statement} {read : α → String → Value} {rows : List α} {a : α} :
    a ∈ s.ordered read rows ↔ a ∈ rows := (Rows.sort_perm _ _ _).mem_iff

theorem pairwise_ordered {α : Type} {s : Statement} {read : α → String → Value} {rows : List α}
    {differ : α → α → Prop} (hsymm : ∀ a b, differ a b → differ b a) (h : rows.Pairwise differ) :
    (s.ordered read rows).Pairwise differ :=
  ((Rows.sort_perm _ _ _).pairwise_iff fun {a b} => hsymm a b).mpr h

theorem mem_of_mem_found {s : Statement} (h : s.isGrouped = false) {rows : List Row} {row : Row}
    (hrow : row ∈ s.found rows) : row ∈ s.filtered rows := by
  have hfound : s.found rows =
      s.ordered s.selection.valueOf (s.distinctRows (s.filtered rows)) :=
    if_neg (Bool.not_eq_true _ ▸ h)
  rw [hfound] at hrow
  have hdistinct := mem_ordered.mp hrow
  unfold distinctRows at hdistinct
  split at hdistinct
  · exact Rows.mem_of_mem_distinct hdistinct
  · exact hdistinct

theorem mem_groups {s : Statement} {rows : List Row} {g : Rows.Group} (h : g ∈ s.groups rows) :
    ∃ first ∈ rows, ∃ members,
      g = Rows.Group.ofMembers s.group s.selection.calls first members := by
  unfold groups at h
  split at h
  · next hempty =>
    rw [List.isEmpty_iff.mp hempty]
    cases rows with
    | nil => cases h
    | cons first rest => exact ⟨first, List.mem_cons_self, _, List.mem_singleton.mp h⟩
  · exact Rows.mem_groups h

theorem exists_of_mem_found {s : Statement} (h : s.isGrouped = true) {rows : List Row} {row : Row}
    (hrow : row ∈ s.found rows) : ∃ g ∈ s.groups (s.filtered rows), g.row = row := by
  have hfound : s.found rows = (s.ordered s.selection.groupValue
      (s.groups (s.filtered rows))).map (·.row) := if_pos h
  rw [hfound] at hrow
  obtain ⟨g, hg, hrow⟩ := List.mem_map.mp hrow
  exact ⟨g, mem_ordered.mp hg, hrow⟩

theorem proper_shown {s : Statement} {row : Row} (h : row.Proper) : (s.shown row).Proper := by
  unfold shown
  split
  · refine Row.proper_ofList fun field hfield => ?_
    obtain ⟨column, -, rfl⟩ := List.mem_map.mp hfield
    exact s.selection.valueOf_proper h column
  · exact h

theorem proper_of_mem_found {s : Statement} {rows : List Row} (hrows : ∀ row ∈ rows, row.Proper)
    {row : Row} (h : row ∈ s.found rows) : row.Proper := by
  have hfiltered : ∀ row ∈ s.filtered rows, row.Proper :=
    fun row hrow => hrows row (List.mem_filter.mp hrow).1
  cases hgrouped : s.isGrouped with
  | false => exact hfiltered row (mem_of_mem_found hgrouped h)
  | true =>
    obtain ⟨g, hg, rfl⟩ := exists_of_mem_found hgrouped h
    obtain ⟨first, hfirst, members, rfl⟩ := mem_groups hg
    exact Rows.proper_ofMembers (hfiltered first hfirst) members

end Statement
end TableQuery
