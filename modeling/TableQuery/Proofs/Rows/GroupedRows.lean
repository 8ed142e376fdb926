import TableQuery.Proofs.Query.ColumnNames
import TableQuery.Proofs.Rows.FirstOccurrences
import TableQuery.Proofs.Value.Keys

/-! # Grouped rows

Rows with finite numbers share a key exactly when their values in the group fields are equal. So
grouping parts the rows: there is one row for each distinct key, in the order of first appearance,
and it sums up exactly the rows that agree with the first of them. Only a column named
`__proto__`, of which a record holds no field, is lost.
-/
namespace TableQuery

namespace Row

/-- Whether two rows have equal values in some fields, where a missing field counts as null. -/
def agree (fields : List String) (a b : Row) : Bool :=
  Value.equalItems (Rows.groupValues fields a) (Rows.groupValues fields b)

/-- Whether all numbers in a row are finite and no record in it names a field twice. -/
def Keyable (row : Row) : Prop := (Value.map row).Keyable

theorem keyable_lookup {row : Row} (h : row.Keyable) (path : String) : (row.lookup path).Keyable :=
  ⟨All.lookup h.1 rfl path, All.lookup h.2 trivial path⟩

theorem groupKey_eq_iff {fields : List String} {a b : Row} (ha : a.Keyable) (hb : b.Keyable) :
    Rows.groupKey fields a = Rows.groupKey fields b ↔ agree fields a b = true := by
  unfold Rows.groupKey agree
  rw [Value.equalItems_iff]
  apply Value.tupleKey_eq_iff
  · exact List.forall_mem_map.mpr fun field _ => keyable_lookup ha field
  · exact List.forall_mem_map.mpr fun field _ => keyable_lookup hb field

end Row

namespace Rows
open Row
variable {fields : List String} {calls : List (String × Call)} {rows : List Row}

/-- What `first` stands for in a grouping of `rows`: its values in the group fields, followed by
the columns that the calls have over all the rows that agree with it. -/
structure IsGroupRow (fields : List String) (calls : List (String × Call)) (rows : List Row)
    (first row : Row) : Prop where
  row_eq : row = (fields.eraseDups.map fun field => (field, first.lookup field)) ++
    callValues calls (rows.filter (agree fields first))
  columns : summarizeAll calls (rows.filter (agree fields first)) =
    [callValues calls (rows.filter (agree fields first))]

/-- `out` has one row for each distinct key of `rows`, in the order of the `firsts`: the first rows
of the keys, each of which stands for all the rows that agree with it. -/
structure Grouping (fields : List String) (calls : List (String × Call))
    (rows firsts out : List Row) : Prop where
  inOrder : firsts.Sublist rows
  apart : firsts.Pairwise fun a b => agree fields a b = false
  found : ∀ row ∈ rows, ∃ first ∈ firsts, rows.find? (agree fields row) = some first
  shown : List.Forall₂ (IsGroupRow fields calls rows) firsts out

/-- Whether `out` is what grouping promises for `rows`. -/
def IsGrouping (fields : List String) (calls : List (String × Call)) (rows out : List Row) : Prop :=
  ∃ firsts, Grouping fields calls rows firsts out

/-- The columns of the parsed lists: no two calls have one column, no call has the column of a
group field, and no column is a whole number or `__proto__`. -/
structure Columns (fields : List String) (calls : List (String × Call)) : Prop where
  fields_index : ∀ field ∈ fields, Record.index? field = none
  calls_index : ∀ entry ∈ calls, Record.index? entry.1 = none
  nodup : (calls.map (·.1)).Nodup
  disjoint : ∀ entry ∈ calls, entry.1 ∉ fields
  fields_proto : "__proto__" ∉ fields
  calls_proto : "__proto__" ∉ calls.map (·.1)

theorem row_ofMembers (h : Columns fields calls) (first : Row) (members : List Row) :
    (Group.ofMembers fields calls first members).row =
      (fields.eraseDups.map fun field => (field, first.lookup field)) ++
        callValues calls members := by
  have hshared := Record.ofList_of_names first.lookup h.fields_index h.fields_proto
  have hnames : Record.names (fields.eraseDups.map fun field => (field, first.lookup field)) =
      fields.eraseDups := by
    unfold Record.names
    rw [List.map_map]
    exact List.map_id' _
  unfold Group.ofMembers
  dsimp only
  unfold Record.ofList at hshared ⊢
  rw [List.foldl_append, hshared, Record.foldl_set_of_new]
  · rw [hnames, names_callValues, List.nodup_append]
    refine ⟨Record.nodup_eraseDups fields, h.nodup, ?_⟩
    intro field hfield column hcolumn hsame
    obtain ⟨entry, hentry, rfl⟩ := List.mem_map.mp hcolumn
    exact h.disjoint entry hentry (hsame ▸ List.mem_eraseDups.mp hfield)
  · intro column hcolumn
    obtain ⟨entry, hentry, rfl⟩ := List.mem_map.mp hcolumn
    exact h.calls_index entry hentry
  · rw [names_callValues]
    exact h.calls_proto

theorem summarizeAll_eq (h : Columns fields calls) {members : List Row} (hmembers : members ≠ []) :
    summarizeAll calls members = [callValues calls members] := by
  have hcalls : Columns [] calls :=
    { h with
      fields_index := List.forall_mem_nil _
      disjoint := fun _ _ => List.not_mem_nil
      fields_proto := List.not_mem_nil }
  cases members with
  | nil => exact absurd rfl hmembers
  | cons first rest => exact congrArg ([·]) (row_ofMembers hcalls first (first :: rest))

theorem sharing_eq_filter (fields : List String) (hrows : ∀ row ∈ rows, row.Keyable) {first : Row}
    (hfirst : first ∈ rows) :
    sharing (groupKey fields) rows first = rows.filter (agree fields first) := by
  refine List.filter_congr fun row hrow => ?_
  rw [Bool.eq_iff_iff, beq_iff_eq, eq_comm]
  exact groupKey_eq_iff (hrows first hfirst) (hrows row hrow)

theorem isGrouping_group (h : Columns fields calls) (hrows : ∀ row ∈ rows, row.Keyable) :
    IsGrouping fields calls rows (group fields calls rows) := by
  have hmem {first : Row} (hfirst : first ∈ firstsBy (groupKey fields) rows) : first ∈ rows :=
    firstsBy_sublist.subset hfirst
  refine ⟨firstsBy (groupKey fields) rows, firstsBy_sublist, ?_, ?_, ?_⟩
  · refine pairwise_firstsBy.imp_of_mem fun ha hb hne => ?_
    rw [← Bool.not_eq_true, ← groupKey_eq_iff (hrows _ (hmem ha)) (hrows _ (hmem hb))]
    exact hne
  · intro row hrow
    obtain ⟨first, hfirst, hfind⟩ := exists_mem_firstsBy (groupKey fields) hrow
    refine ⟨first, hfirst, (List.find?_congr fun other hother => ?_).trans hfind⟩
    rw [Bool.eq_iff_iff, beq_iff_eq, eq_comm (a := groupKey fields other)]
    exact (groupKey_eq_iff (hrows row hrow) (hrows other hother)).symm
  · unfold group
    rw [groups_eq_map, List.map_map, List.forall₂_map_right_iff, List.forall₂_same]
    intro first hfirst
    have hmembers := sharing_eq_filter fields hrows (hmem hfirst)
    have hself : agree fields first first = true :=
      (groupKey_eq_iff (hrows first (hmem hfirst)) (hrows first (hmem hfirst))).mp rfl
    constructor
    · rw [Function.comp_apply, hmembers, row_ofMembers h]
    · apply summarizeAll_eq h
      exact List.ne_nil_of_mem (List.mem_filter.mpr ⟨hmem hfirst, hself⟩)

theorem not_isGrouping_group (hrows : rows ≠ [])
    (hproto : "__proto__" ∈ fields ∨ "__proto__" ∈ calls.map (·.1)) :
    ¬ IsGrouping fields calls rows (group fields calls rows) := by
  rintro ⟨firsts, -, -, hfound, hshown⟩
  obtain ⟨row, hrow⟩ := List.exists_mem_of_ne_nil rows hrows
  obtain ⟨first, hfirst, -⟩ := hfound row hrow
  obtain ⟨out, hmem, hgroup⟩ := Value.exists_of_mem_left hshown hfirst
  obtain ⟨g, hg, rfl⟩ := List.mem_map.mp hmem
  obtain ⟨first', -, members, rfl⟩ := mem_groups hg
  have hnone : "__proto__" ∉ Record.names (Group.ofMembers fields calls first' members).row :=
    (Record.proper_ofList _).noProto
  apply hnone
  rw [hgroup.row_eq]
  unfold Record.names
  rw [List.map_append, names_callValues, List.map_map, List.mem_append]
  refine hproto.imp (fun hfield => ?_) id
  exact List.mem_map.mpr ⟨"__proto__", List.mem_eraseDups.mpr hfield, rfl⟩

theorem columns_of_read {groupText selectText : List Char} {s : Selection}
    (hgroup : Query.readGroup groupText = .ok fields) (hselect : Selection.read selectText = .ok s)
    (hdisjoint : ∀ entry ∈ s.calls, entry.1 ∉ fields) (hfields : "__proto__" ∉ fields)
    (hcalls : "__proto__" ∉ s.calls.map (·.1)) : Columns fields s.calls where
  fields_index := Query.index?_of_readGroup hgroup
  calls_index := (Selection.labelled_of_read hselect).calls
  nodup := Selection.nodup_calls_of_read hselect
  disjoint := hdisjoint
  fields_proto := hfields
  calls_proto := hcalls

/-- Rows are grouped as they should be by all parsed lists in which no call has the column of a
group field, exactly when no group field and no column of a call is `__proto__`, unless there is
nothing to group. -/
theorem isGrouping_iff {groupText selectText : List Char} {s : Selection}
    (hgroup : Query.readGroup groupText = .ok fields) (hselect : Selection.read selectText = .ok s)
    (hdisjoint : ∀ entry ∈ s.calls, entry.1 ∉ fields) (hrows : ∀ row ∈ rows, row.Keyable) :
    IsGrouping fields s.calls rows (group fields s.calls rows) ↔
      rows = [] ∨ "__proto__" ∉ fields ∧ "__proto__" ∉ s.calls.map (·.1) := by
  constructor
  · intro h
    by_cases hempty : rows = []
    · exact Or.inl hempty
    · exact Or.inr ⟨fun hfield => not_isGrouping_group hempty (Or.inl hfield) h,
        fun hcall => not_isGrouping_group hempty (Or.inr hcall) h⟩
  · rintro (rfl | ⟨hfields, hcalls⟩)
    · exact ⟨[], List.Sublist.refl _, List.Pairwise.nil, List.forall_mem_nil _, List.Forall₂.nil⟩
    · exact isGrouping_group (columns_of_read hgroup hselect hdisjoint hfields hcalls) hrows

/-- The rows `{a: 1, b: {c: "x"}}`, `{a: 2}` and `{b: {c: "x"}, a: 1.0}`. -/
def nestedRows : List Row :=
  [[("a", .int (Number.ofNat 1)), ("b", .map [("c", .string "x")])],
    [("a", .int (Number.ofNat 2))],
    [("b", .map [("c", .string "x")]), ("a", .float (Number.ofNat 1))]]

theorem isGrouping_iff_nested :
    IsGrouping ["a", "b.c"] [("COUNT(*)", ⟨.count, "*"⟩), ("low", ⟨.min, "a"⟩)] nestedRows
      (group ["a", "b.c"] [("COUNT(*)", ⟨.count, "*"⟩), ("low", ⟨.min, "a"⟩)] nestedRows) := by
  have hone : Number.isFinite (Number.ofNat 1) = true := Number.isFinite_ofNat (by decide)
  have htwo : Number.isFinite (Number.ofNat 2) = true := Number.isFinite_ofNat (by decide)
  have hgroup : Query.readGroup "a, b.c".toList = .ok ["a", "b.c"] := by decide
  have hselect : Selection.read "COUNT(*), MIN(a) AS low".toList =
      .ok ⟨["COUNT(*)", "low"], false, [("COUNT(*)", ⟨.count, "*"⟩), ("low", ⟨.min, "a"⟩)],
        [("low", "MIN(a)")]⟩ := by
    decide +kernel
  refine (isGrouping_iff hgroup hselect (by decide) ?_).mpr (Or.inr (by decide))
  simp [nestedRows, Row.Keyable, Value.Keyable, Value.All, Value.parts, Value.fieldParts,
    Value.NumberIs, Value.number?, Value.DistinctNames, Record.names, hone, htwo]

/-- The count that is selected as `__proto__` is lost. -/
theorem not_isGrouping_proto :
    Query.readGroup "a".toList = .ok ["a"] ∧
    Selection.read "COUNT(*) AS __proto__".toList =
      .ok ⟨["__proto__"], false, [("__proto__", ⟨.count, "*"⟩)], [("__proto__", "COUNT(*)")]⟩ ∧
    Row.Keyable [("a", .int (Number.ofNat 1))] ∧
    ¬ IsGrouping ["a"] [("__proto__", ⟨.count, "*"⟩)] [[("a", .int (Number.ofNat 1))]]
      (group ["a"] [("__proto__", ⟨.count, "*"⟩)] [[("a", .int (Number.ofNat 1))]]) := by
  have hone : Number.isFinite (Number.ofNat 1) = true := Number.isFinite_ofNat (by decide)
  refine ⟨by decide, by decide +kernel, ?_, ?_⟩
  · simp [Row.Keyable, Value.Keyable, Value.All, Value.parts, Value.fieldParts, Value.NumberIs,
      Value.number?, Value.DistinctNames, Record.names, hone]
  · exact not_isGrouping_group (List.cons_ne_nil _ _) (Or.inr List.mem_cons_self)

end Rows
end TableQuery
