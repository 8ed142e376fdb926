import TableQuery.Proofs.Rows.FirstOccurrences
import TableQuery.Proofs.Rows.Samples
import TableQuery.Rows.Columns

/-! # Totals of groups

The rows of all groups are all rows, in another order. So the counts of the groups add up to the
count over all rows, and the least number of all rows is the least of those of the groups.
-/
namespace TableQuery.Rows
variable {rows : List Row}

/-- The values that the rows of the groups have in a column. -/
def columnValues (s : Selection) (fields : List String) (rows : List Row) (column : String) :
    List Value := (groups fields s.calls rows).map (s.groupValue · column)

section
variable {s : Selection} {fields : List String} {column : String} {call : Call}

theorem groupValue_ofMembers (hcalls : (s.calls.map (·.1)).Nodup) (hcall : (column, call) ∈ s.calls)
    (first : Row) (members : List Row) :
    s.groupValue (Group.ofMembers fields s.calls first members) column =
      summarize call members := by
  have hlookup := lookup_callValues hcalls hcall members
  unfold Selection.groupValue Group.ofMembers
  dsimp only
  rw [hlookup, Option.getD_some]

theorem columnValues_eq_map (hcalls : (s.calls.map (·.1)).Nodup)
    (hcall : (column, call) ∈ s.calls) : columnValues s fields rows column =
      (firstsBy (groupKey fields) rows).map fun first =>
        summarize call (sharing (groupKey fields) rows first) := by
  unfold columnValues
  rw [groups_eq_map, List.map_map]
  exact List.map_congr_left fun first _ => groupValue_ofMembers hcalls hcall first _

/-- A group's row shows the value of a call in a field of its own, unless it is `__proto__`. -/
theorem get?_of_mem_groups (hcalls : (s.calls.map (·.1)).Nodup) (hcall : (column, call) ∈ s.calls)
    (hproto : column ≠ "__proto__") {g : Group} (hg : g ∈ groups fields s.calls rows) :
    Record.get? g.row column = some (s.groupValue g column) := by
  obtain ⟨first, -, members, rfl⟩ := mem_groups hg
  rw [get?_ofMembers_call hcalls hcall hproto, groupValue_ofMembers hcalls hcall]

/-- Whether the values are counts that add up to a number. -/
def AddUpTo (values : List Value) (n : Nat) : Prop :=
  ∃ counts : List Nat, values = counts.map Value.ofNat ∧ counts.sum = n

theorem addUpTo_columnValues (hcalls : (s.calls.map (·.1)).Nodup)
    (hcall : (column, call) ∈ s.calls) (hcount : call.function = .count) :
    AddUpTo (columnValues s fields rows column) (rows.countP (isCounted call.field)) := by
  refine ⟨(firstsBy (groupKey fields) rows).map fun first =>
    (sharing (groupKey fields) rows first).countP (isCounted call.field), ?_, ?_⟩
  · rw [columnValues_eq_map hcalls hcall, List.map_map]
    exact List.map_congr_left fun first _ => summarize_count hcount _
  · have hperm : ((firstsBy (groupKey fields) rows).flatMap
        (sharing (groupKey fields) rows)).Perm rows := perm_flatMap_sharing
    rw [← hperm.countP_eq, List.countP_flatMap]
    rfl

/-- What is chosen from the groups' samples is chosen from the sample of all rows. -/
theorem isExtreme_columnValues {choose : Float → Float → Float} {place : Float → Int}
    (hchoose : Number.Chooses choose place) (hcalls : (s.calls.map (·.1)).Nodup)
    (hcall : (column, call) ∈ s.calls)
    (hsummarize : ∀ rows, summarize call rows = extreme choose (sample call.field rows))
    (hrows : ∀ row ∈ rows, row.All Value.NotNaN) :
    IsExtreme choose (columnValues s fields rows column) (summarize call rows) := by
  have hperm : ((firstsBy (groupKey fields) rows).flatMap
      (sharing (groupKey fields) rows)).Perm rows := perm_flatMap_sharing
  have hvalues : columnValues s fields rows column =
      ((firstsBy (groupKey fields) rows).map fun first =>
        sample call.field (sharing (groupKey fields) rows first)).map (extreme choose) := by
    rw [columnValues_eq_map hcalls hcall, List.map_map]
    exact List.map_congr_left fun first _ => hsummarize _
  rw [hvalues, hsummarize]
  apply isExtreme_map hchoose
  · exact fun x hx => isNaN_of_mem_sample hrows hx
  · intro x
    simp only [List.mem_map, exists_exists_and_eq_and, mem_sample_iff, ← hperm.mem_iff,
      List.mem_flatMap]
    exact ⟨fun ⟨row, ⟨first, hfirst, hrow⟩, hx⟩ => ⟨first, hfirst, row, hrow, hx⟩,
      fun ⟨first, hfirst, row, hrow, hx⟩ => ⟨row, ⟨first, hfirst, hrow⟩, hx⟩⟩

end

/-- The totals of the groups are those of all rows: the counts add up to the count over all rows,
which for a star is their number, the least of the least numbers is the least of all, and likewise
the greatest, null where they all are null. The order of the rows does not matter. -/
theorem totals_of_groups (s : Selection) (hcalls : (s.calls.map (·.1)).Nodup) {column : String}
    {call : Call} (hcall : (column, call) ∈ s.calls) (fields : List String)
    (hrows : ∀ row ∈ rows, row.All Value.NotNaN) :
    (column ≠ "__proto__" → ∀ g ∈ groups fields s.calls rows,
      Record.get? g.row column = some (s.groupValue g column)) ∧
    (call.function = .count → ∃ n, AddUpTo (columnValues s fields rows column) n ∧
      summarize call rows = .ofNat n ∧ (call.field = "*" → n = rows.length)) ∧
    (call.function = .min →
      IsExtreme Number.least (columnValues s fields rows column) (summarize call rows)) ∧
    (call.function = .max →
      IsExtreme Number.greatest (columnValues s fields rows column) (summarize call rows)) ∧
    (call.function = .count ∨ call.function = .min ∨ call.function = .max →
      ∀ others, rows.Perm others → summarize call others = summarize call rows) := by
  refine ⟨fun hproto g hg => get?_of_mem_groups hcalls hcall hproto hg, fun h => ?_, fun h => ?_,
    fun h => ?_, fun h others hperm => (summarize_of_perm h hrows hperm).symm⟩
  · refine ⟨_, addUpTo_columnValues hcalls hcall h, summarize_count h rows, fun hstar => ?_⟩
    have hall : isCounted call.field = fun _ => true := by
      funext row
      simp [isCounted, hstar]
    rw [hall, List.countP_true]
  · exact isExtreme_columnValues Number.chooses_least hcalls hcall (summarize_min h) hrows
  · exact isExtreme_columnValues Number.chooses_greatest hcalls hcall (summarize_max h) hrows

/-- The rows `{a: "x", b: 1}`, `{a: "y", b: "2.5"}` and `{a: "x", b: null}`. -/
def mixedRows : List Row :=
  [[("a", .string "x"), ("b", .int (Number.ofNat 1))], [("a", .string "y"), ("b", .string "2.5")],
    [("a", .string "x"), ("b", .null)]]

def mixedCalls : Selection :=
  ⟨["low", "COUNT(*)"], false, [("low", ⟨.min, "b"⟩), ("COUNT(*)", ⟨.count, "*"⟩)],
    [("low", "MIN(b)")]⟩

theorem totals_of_groups_mixed :
    IsExtreme Number.least (columnValues mixedCalls ["a"] mixedRows "low")
        (summarize ⟨.min, "b"⟩ mixedRows) ∧
      AddUpTo (columnValues mixedCalls ["a"] mixedRows "COUNT(*)") 3 := by
  have hone : Number.isNaN (Number.ofNat 1) = false :=
    Number.isNaN_ofWord _ (Number.nearest_le _ _)
  have hrows : ∀ row ∈ mixedRows, row.All Value.NotNaN := by
    simp [mixedRows, Row.All, Value.All, Value.parts, Value.fieldParts, Value.NumberIs,
      Value.number?, hone]
  have hcalls : (mixedCalls.calls.map (·.1)).Nodup := by decide
  have hlow : ("low", ⟨.min, "b"⟩) ∈ mixedCalls.calls := List.mem_cons_self
  have hcount : ("COUNT(*)", ⟨.count, "*"⟩) ∈ mixedCalls.calls :=
    List.mem_cons_of_mem _ List.mem_cons_self
  constructor
  · exact (totals_of_groups mixedCalls hcalls hlow ["a"] hrows).2.2.1 rfl
  · obtain ⟨n, hvalues, -, hstar⟩ :=
      (totals_of_groups mixedCalls hcalls hcount ["a"] hrows).2.1 rfl
    rwa [hstar rfl] at hvalues

end TableQuery.Rows
