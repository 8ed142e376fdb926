import TableQuery.Proofs.Session.Outcome
import TableQuery.Proofs.Session.ShownRows
import TableQuery.Proofs.Sorting.Permutation

/-! # Results without repetition

A result that asks for distinct rows has no two equal ones where it is not grouped. Groups are
not compared any more: they differ in the values of their group fields, so their rows do where
each of these values is shown.
-/
namespace TableQuery

/-- Whether two rows hold equal values under the same names. -/
def Row.equal (a b : Row) : Bool := Value.equal (.map a) (.map b)

namespace Statement

/-- Whether the rows of the result show the value of a group field. Rows that are projected show
it in a column of its name, or in a column that stands for it and is no group field. All others
show it under its name, unless a call has that name. -/
def Shows (s : Statement) (field : String) : Prop :=
  if s.isProjected then
    field ∈ s.selection.columns ∨ ∃ name ∈ s.selection.columns, name ≠ "__proto__" ∧
      name ∉ s.group ∧ s.selection.aliases.lookup name = some field
  else field ∉ s.selection.calls.map (·.1)

instance (s : Statement) (field : String) : Decidable (s.Shows field) :=
  inferInstanceAs (Decidable (if s.isProjected then field ∈ s.selection.columns ∨
    ∃ name ∈ s.selection.columns, name ≠ "__proto__" ∧ name ∉ s.group ∧
      s.selection.aliases.lookup name = some field else field ∉ s.selection.calls.map (·.1)))

theorem Shows.notCall {s : Statement} {field : String} (h : s.Shows field) :
    field ∉ s.selection.calls.map (·.1) := by
  by_cases hprojected : s.isProjected = true
  · rw [calls_of_isProjected hprojected]
    exact List.not_mem_nil
  · unfold Shows at h
    rwa [if_neg hprojected] at h

theorem Shows.exists_column {s : Statement} {field : String} (h : s.Shows field)
    (hproto : field ≠ "__proto__") (hfield : field ∈ s.group) :
    ∃ column, ∀ first members, Record.get?
      (s.shown (Rows.Group.ofMembers s.group s.selection.calls first members).row) column =
        some (first.lookup field) := by
  have hheld := Rows.get?_ofMembers hfield h.notCall hproto
  by_cases hprojected : s.isProjected = true
  · have hcalls := calls_of_isProjected hprojected
    unfold Shows at h
    rw [if_pos hprojected] at h
    rcases h with hcolumn | ⟨name, hname, hnameProto, hgroup, halias⟩
    · refine ⟨field, fun first members => ?_⟩
      rw [get?_shown hprojected hcolumn hproto,
        Selection.valueOf_of_get? hcalls (hheld first members)]
    · refine ⟨name, fun first members => ?_⟩
      have hnotCall : name ∉ s.selection.calls.map (·.1) := by simp [hcalls]
      have hnone := Rows.get?_ofMembers_eq_none hgroup hnotCall first members
      rw [get?_shown hprojected hname hnameProto,
        Selection.valueOf_of_alias hcalls halias hnone, Row.column_of_get? (hheld first members)]
  · refine ⟨field, fun first members => ?_⟩
    unfold shown
    rw [if_neg hprojected, hheld]

/-- Whether the rows of the result show all that tells the rows found apart: each group field, or
each column that is selected. No row shows a column with the alias `__proto__`. -/
def ShowsKeys (s : Statement) : Prop :=
  if s.isGrouped then ∀ field ∈ s.group, s.Shows field
  else s.selection.aliases.lookup "__proto__" = none

instance (s : Statement) : Decidable s.ShowsKeys :=
  inferInstanceAs (Decidable (if s.isGrouped then ∀ field ∈ s.group, s.Shows field
    else s.selection.aliases.lookup "__proto__" = none))

theorem pairwise_groups {s : Statement} (h : ∀ field ∈ s.group, s.Shows field) {rows : List Row}
    (hrows : ∀ row ∈ rows, row.Proper) :
    (s.groups rows).Pairwise fun g h =>
      Rows.heldKey s.group g.row ≠ Rows.heldKey s.group h.row := by
  unfold groups
  split
  · cases rows with
    | nil => exact List.Pairwise.nil
    | cons first rest => exact List.pairwise_singleton _ _
  · exact Rows.pairwise_groups (fun field hfield => (h field hfield).notCall) hrows

theorem heldKey_of_equal {s : Statement} (hshows : ∀ field ∈ s.group, s.Shows field)
    {rows : List Row} (hrows : ∀ row ∈ rows, row.Proper) {g h : Rows.Group}
    (hg : g ∈ s.groups rows) (hh : h ∈ s.groups rows)
    (hequal : (s.shown g.row).equal (s.shown h.row) = true) :
    Rows.heldKey s.group g.row = Rows.heldKey s.group h.row := by
  obtain ⟨first, hfirst, members, rfl⟩ := mem_groups hg
  obtain ⟨first', hfirst', members', rfl⟩ := mem_groups hh
  have hproper := hrows first hfirst
  have hproper' := hrows first' hfirst'
  have hcalls := fun field hfield => (hshows field hfield).notCall
  rw [Rows.heldKey_ofMembers hcalls hproper, Rows.heldKey_ofMembers hcalls hproper']
  apply Value.tupleKey_map_of_equal
  · exact fun field _ => (hproper.lookup field).distinctNames
  · exact fun field _ => (hproper'.lookup field).distinctNames
  · intro field hfield
    by_cases hproto : field = "__proto__"
    · rw [hproto, hproper.lookup_proto, hproper'.lookup_proto]
      rfl
    · obtain ⟨column, hcolumn⟩ := (hshows field hfield).exists_column hproto hfield
      obtain ⟨v, hv, hsame⟩ := Value.get?_of_equal hequal (hcolumn first members)
      rw [hcolumn first' members'] at hv
      rwa [Option.some.inj hv]

theorem distinctKey_of_equal {s : Statement} (hcalls : s.selection.calls = [])
    (halias : s.selection.aliases.lookup "__proto__" = none) {a b : Row} (ha : a.Proper)
    (hb : b.Proper) (hequal : (s.shown a).equal (s.shown b) = true) :
    Rows.distinctKey s.selection a = Rows.distinctKey s.selection b := by
  unfold Rows.distinctKey
  by_cases hstar : s.selection.isStar = true
  · have hshown (row : Row) : s.shown row = row := by simp [shown, isProjected, hstar]
    rw [hshown, hshown] at hequal
    rw [if_pos hstar, if_pos hstar]
    exact Value.tupleKey_of_equal (List.forall_mem_singleton.mpr (Value.Proper.distinctNames ha))
      (List.forall_mem_singleton.mpr (Value.Proper.distinctNames hb)) (.cons hequal .nil)
  · have hprojected : s.isProjected = true := by simp [isProjected, hstar, hcalls]
    rw [if_neg hstar, if_neg hstar]
    apply Value.tupleKey_map_of_equal
    · exact fun column _ => (s.selection.valueOf_proper ha column).distinctNames
    · exact fun column _ => (s.selection.valueOf_proper hb column).distinctNames
    · intro column hcolumn
      by_cases hproto : column = "__proto__"
      · rw [hproto, Selection.valueOf_of_noAlias hcalls halias,
          Selection.valueOf_of_noAlias hcalls halias, Row.column_proto ha.get?_proto,
          Row.column_proto hb.get?_proto]
        rfl
      · obtain ⟨v, hv, hsame⟩ :=
          Value.get?_of_equal hequal (get?_shown hprojected hcolumn hproto a)
        rw [get?_shown hprojected hcolumn hproto b] at hv
        rwa [Option.some.inj hv]

/-- No two rows that are found are shown alike, if they are distinct or groups that are shown. -/
theorem pairwise_found {s : Statement} (hdistinct : s.selection.distinct = true)
    (hshows : s.ShowsKeys) {rows : List Row} (hrows : ∀ row ∈ rows, row.Proper) :
    (s.found rows).Pairwise fun a b => (s.shown a).equal (s.shown b) = false := by
  have hfiltered : ∀ row ∈ s.filtered rows, row.Proper :=
    fun row hrow => hrows row (List.mem_filter.mp hrow).1
  unfold ShowsKeys at hshows
  unfold found
  dsimp only
  by_cases hgrouped : s.isGrouped = true
  · rw [if_pos hgrouped] at hshows
    rw [if_pos hgrouped]
    have hordered : (s.ordered s.selection.groupValue (s.groups (s.filtered rows))).Pairwise
        fun g h => Rows.heldKey s.group g.row ≠ Rows.heldKey s.group h.row :=
      pairwise_ordered (fun _ _ => Ne.symm) (pairwise_groups hshows hfiltered)
    refine List.pairwise_map.mpr (hordered.imp_of_mem fun hg hh hne => ?_)
    rw [← Bool.not_eq_true]
    intro hequal
    exact hne (heldKey_of_equal hshows hfiltered (mem_ordered.mp hg) (mem_ordered.mp hh) hequal)
  · rw [if_neg hgrouped] at hshows
    rw [if_neg hgrouped]
    have hcalls : s.selection.calls = [] := by
      simp only [isGrouped, Bool.or_eq_true, Bool.not_eq_true', not_or] at hgrouped
      simpa using hgrouped.2
    unfold distinctRows
    rw [if_pos hdistinct]
    have hordered : (s.ordered s.selection.valueOf
        (Rows.distinct s.selection (s.filtered rows))).Pairwise fun a b =>
          Rows.distinctKey s.selection a ≠ Rows.distinctKey s.selection b :=
      pairwise_ordered (fun _ _ => Ne.symm) (Rows.pairwise_distinct s.selection _)
    refine hordered.imp_of_mem fun ha hb hne => ?_
    have hmem (row : Row) (h : row ∈ s.ordered s.selection.valueOf
        (Rows.distinct s.selection (s.filtered rows))) : row.Proper :=
      hfiltered row (Rows.mem_of_mem_distinct (mem_ordered.mp h))
    rw [← Bool.not_eq_true]
    intro hequal
    exact hne (distinctKey_of_equal hcalls hshows (hmem _ ha) (hmem _ hb) hequal)

/-- The rows found are those of all groups of the rows that pass the filter, one for each key, be
they shown alike or not. -/
structure FindsGroups (s : Statement) (rows : List Row) : Prop where
  perm : (s.found rows).Perm (Rows.group s.group s.selection.calls (s.filtered rows))
  length_eq : (s.found rows).length =
    ((s.filtered rows).map (Rows.groupKey s.group)).dedup.length

theorem findsGroups {s : Statement} (h : s.group ≠ []) (rows : List Row) : s.FindsGroups rows := by
  have hgrouped : s.isGrouped = true := by simp [isGrouped, h]
  have hgroups : s.groups (s.filtered rows) =
      Rows.groups s.group s.selection.calls (s.filtered rows) := if_neg (by simp [h])
  have hperm : (s.found rows).Perm (Rows.group s.group s.selection.calls (s.filtered rows)) := by
    unfold found
    dsimp only
    rw [if_pos hgrouped, hgroups]
    exact (Rows.sort_perm _ _ _).map Rows.Group.row
  refine ⟨hperm, ?_⟩
  rw [hperm.length_eq, Rows.group, Rows.groups_eq_map, List.length_map, List.length_map,
    Rows.length_firstsBy]

end Statement

namespace Engine

end Engine
end TableQuery
