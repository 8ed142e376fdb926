import TableQuery.Proofs.Session.Outcome
import TableQuery.Proofs.Session.ShownRows
import TableQuery.Proofs.Sorting.Images

/-! # Distinct rows and groups

Rows that are distinct in some fields and groups of these fields are the same result. Both keep
the first row of each kind, the one as it is and the other rebuilt from the fields; order and
projection look at nothing but the fields, which both hold with the same values where no name
of a row has a point in it. Only the field `__proto__` is lost when a row is rebuilt. No result
shows it, but rows that hold it may come in another order.
-/
namespace TableQuery

namespace Selection

/-- Selected fields that are no calls and have no aliases. -/
def ofFields (fields : List String) (distinct : Bool) : Selection := ⟨fields, distinct, [], []⟩

theorem valueOf_ofFields (fields : List String) (distinct : Bool) (row : Row) (column : String) :
    (ofFields fields distinct).valueOf row column = row.column column :=
  valueOf_of_noAlias rfl rfl row

end Selection

namespace Rows
open Selection

/-- The row of a group without calls: the fields of its first row. -/
def groupRow (fields : List String) (first : Row) : Row :=
  Record.ofList (fields.map fun field => (field, first.lookup field))

theorem ofMembers_nil (fields : List String) (first : Row) (members : List Row) :
    Group.ofMembers fields [] first members = ⟨[], groupRow fields first⟩ := by
  unfold Group.ofMembers groupRow callValues
  dsimp only
  rw [List.map_nil, List.append_nil]

theorem groups_nil (fields : List String) (rows : List Row) :
    groups fields [] rows = (keepFirst [] (rows.map fun row => (groupKey fields row, row))).map
      fun entry => ⟨[], groupRow fields entry.2⟩ :=
  List.map_congr_left fun entry _ => ofMembers_nil fields entry.2 _

variable {fields : List String}

/-- The row of a group has the columns of its first row, but holds no field `__proto__`. -/
theorem column_groupRow {row : Row} (hpoints : row.NoPoints) {field : String}
    (hfield : field ∈ fields)
    (hproto : field = "__proto__" → Record.get? row "__proto__" = none) :
    (groupRow fields row).column field = row.column field := by
  by_cases heq : field = "__proto__"
  · have hnone : Record.get? (groupRow fields row) "__proto__" = none := by
      unfold groupRow
      rw [Record.get?_ofList, if_pos rfl]
    rw [heq, Row.column_proto hnone, Row.column_proto (hproto heq)]
  · have hheld : Record.get? (groupRow fields row) field = some (row.lookup field) :=
      Record.get?_ofList_of_names row.lookup hfield heq
    rw [Row.column_of_get? hheld, hpoints.column_eq_lookup]

theorem distinctKey_ofFields (hstar : (ofFields fields true).isStar = false) {row : Row}
    (hpoints : row.NoPoints) : distinctKey (ofFields fields true) row = groupKey fields row := by
  unfold distinctKey groupKey groupValues
  rw [if_neg (by rw [hstar]; decide)]
  congr 1
  refine List.map_congr_left fun field _ => ?_
  rw [valueOf_ofFields, hpoints.column_eq_lookup]

theorem groups_eq_distinct (hstar : (ofFields fields true).isStar = false) {rows : List Row}
    (hpoints : ∀ row ∈ rows, row.NoPoints) :
    groups fields [] rows =
      (distinct (ofFields fields true) rows).map fun row => ⟨[], groupRow fields row⟩ := by
  have hkeys : (rows.map fun row => (groupKey fields row, row)) =
      rows.map fun row => (distinctKey (ofFields fields true) row, row) :=
    List.map_congr_left fun row hrow => by rw [distinctKey_ofFields hstar (hpoints row hrow)]
  rw [groups_nil, hkeys, distinct, List.map_map]
  rfl

end Rows

namespace Statement

/-- The statement for the distinct values of some fields, with the filter, the order and the
limit of another one. -/
def distinctOf (s : Statement) (fields : List String) : Statement :=
  { s with selection := Selection.ofFields fields true, group := [] }

def groupedBy (s : Statement) (fields : List String) : Statement :=
  { s with selection := Selection.ofFields fields false, group := fields }

variable {s : Statement} {fields : List String}

theorem ordered_ofFields {α : Type} (s : Statement) (group : List String) (distinct : Bool)
    (read : α → String → Value) (rows : List α) :
    ordered { s with selection := Selection.ofFields fields distinct, group } read rows =
      Rows.sort s.order read rows :=
  congrArg (Rows.sort · read rows) (List.map_id s.order)

/-- Rows that a statement is ordered by `__proto__` do not hold it. -/
def NoProtoKey (s : Statement) (rows : List Row) : Prop :=
  ∀ key ∈ s.order, key.column = "__proto__" → ∀ row ∈ rows, Record.get? row "__proto__" = none

theorem found_groupedBy (hne : fields ≠ [])
    (hstar : (Selection.ofFields fields true).isStar = false)
    (horder : ∀ key ∈ s.order, key.column ∈ fields) {rows : List Row}
    (hproto : s.NoProtoKey rows) (hpoints : ∀ row ∈ rows, row.NoPoints) :
    (s.groupedBy fields).found rows =
      ((s.distinctOf fields).found rows).map (Rows.groupRow fields) := by
  have hfiltered : ∀ row ∈ s.filtered rows, row ∈ rows :=
    fun row hrow => (List.mem_filter.mp hrow).1
  have hgrouped : (s.groupedBy fields).isGrouped = true := by simp [isGrouped, groupedBy, hne]
  have hgroups : (s.groupedBy fields).groups (s.filtered rows) =
      (Rows.distinct (Selection.ofFields fields true) (s.filtered rows)).map
        fun row => ⟨[], Rows.groupRow fields row⟩ := by
    rw [← Rows.groups_eq_distinct hstar fun row hrow => hpoints row (hfiltered row hrow)]
    exact if_neg (by simp [groupedBy, hne])
  have hread : ∀ row ∈ Rows.distinct (Selection.ofFields fields true) (s.filtered rows),
      ∀ key ∈ s.order,
        (Selection.ofFields fields false).groupValue ⟨[], Rows.groupRow fields row⟩ key.column =
          (Selection.ofFields fields true).valueOf row key.column := by
    intro row hrow key hkey
    have hmem := hfiltered row (Rows.mem_of_mem_distinct hrow)
    unfold Selection.groupValue
    rw [List.lookup_nil, Option.getD_none, Selection.valueOf_ofFields, Selection.valueOf_ofFields,
      Rows.column_groupRow (hpoints row hmem) (horder key hkey)
        fun heq => hproto key hkey heq row hmem]
  calc (s.groupedBy fields).found rows
      = ((s.groupedBy fields).ordered (Selection.ofFields fields false).groupValue
          ((s.groupedBy fields).groups (s.filtered rows))).map (·.row) := if_pos hgrouped
    _ = (Rows.sort s.order (Selection.ofFields fields false).groupValue
          ((Rows.distinct (Selection.ofFields fields true) (s.filtered rows)).map
            fun row => ⟨[], Rows.groupRow fields row⟩)).map (·.row) := by
        rw [hgroups]
        exact congrArg (List.map Rows.Group.row) (ordered_ofFields s fields false _ _)
    _ = (Rows.sort s.order (Selection.ofFields fields true).valueOf
          (Rows.distinct (Selection.ofFields fields true) (s.filtered rows))).map
            (Rows.groupRow fields) := by
        rw [Rows.sort_map hread, List.map_map]
        rfl
    _ = ((s.distinctOf fields).found rows).map (Rows.groupRow fields) :=
        congrArg (List.map (Rows.groupRow fields)) (ordered_ofFields s [] true _ _).symm

theorem shown_groupRow (hstar : (Selection.ofFields fields true).isStar = false) {row : Row}
    (hpoints : row.NoPoints) :
    (s.groupedBy fields).shown (Rows.groupRow fields row) = (s.distinctOf fields).shown row := by
  have hprojected : (s.distinctOf fields).isProjected = true := by
    unfold isProjected
    rw [Bool.and_eq_true, Bool.not_eq_true']
    exact ⟨hstar, rfl⟩
  have hprojected' : (s.groupedBy fields).isProjected = true := hprojected
  unfold shown
  rw [if_pos hprojected, if_pos hprojected']
  refine Record.ofList_congr fun field hfield hproto => ?_
  have hsame := Rows.column_groupRow hpoints hfield fun heq => absurd heq hproto
  exact ((Selection.valueOf_ofFields _ _ _ _).trans hsame).trans
    (Selection.valueOf_ofFields _ _ _ _).symm

theorem answer_groupedBy (hne : fields ≠ [])
    (hstar : (Selection.ofFields fields true).isStar = false)
    (horder : ∀ key ∈ s.order, key.column ∈ fields) {rows : List Row}
    (hproto : s.NoProtoKey rows) (hpoints : ∀ row ∈ rows, row.NoPoints) (limit : Float) :
    (s.groupedBy fields).answer limit rows = (s.distinctOf fields).answer limit rows := by
  rw [answer_eq_map, answer_eq_map, found_groupedBy hne hstar horder hproto hpoints,
    Limit.cut_map, List.map_map]
  refine List.map_congr_left fun row hrow => shown_groupRow hstar (hpoints row ?_)
  exact (List.mem_filter.mp (mem_of_mem_found rfl ((Limit.cut_sublist _ _).subset hrow))).1

end Statement

namespace Engine

/-- A provider of one table `t` that holds rows as they are. -/
def holding (rows : List Row) : Provider where
  hasTable := fun _ => .ok true
  names := .ok ["t"]
  rows := fun _ => .ok rows
  description := fun _ => .ok none

/-- What an engine with default settings answers in plain data to a query over some rows. -/
def answerOver (rows : List Row) (query : String) (noted : Record.Noted) : Response :=
  (((Engine.mk {}).execute (holding rows) query none "json").run (Journal.note noted {})).1

/-- Two of three rows agree in a field and in `__proto__`. -/
def agreeingRows : List Row :=
  [[("a", .map [("b", .string "y")]), ("__proto__", .string "p")],
    [("a", .map [("b", .string "x")])],
    [("__proto__", .string "p"), ("a", .map [("b", .string "y")]), ("d", .null)]]

end Engine
end TableQuery
