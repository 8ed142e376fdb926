import TableQuery.Proofs.Data.RecordNames
import TableQuery.Proofs.Number.Bounds
import TableQuery.Proofs.Number.Rank
import TableQuery.Proofs.Text.FieldPath
import TableQuery.Proofs.Text.UnitOrder
import TableQuery.Proofs.Value.Structure
import TableQuery.Session.Execute

/-! # Offered paths

A path is written by joining the names of nested fields with points, and resolved by splitting it
at its points again. Where no name is empty or has a point in it, the two are inverse to each
other, so the paths that rows offer are those that resolve in one of them.
-/
namespace TableQuery

def IsSegment (name : String) : Prop := name ≠ "" ∧ '.' ∉ name.toList

instance (name : String) : Decidable (IsSegment name) :=
  inferInstanceAs (Decidable (name ≠ "" ∧ '.' ∉ name.toList))

def pathNames (path : String) : List String := (pathSegments path.toList).map String.ofList

/-- The path of a field in a map that is found at another path. -/
def pathUnder (parent name : String) : String :=
  if parent = "" then name else parent ++ "." ++ name

def pathOf (names : List String) : String := names.foldl pathUnder ""

theorem pathSegments_eq_splitOn (cs : List Char) : pathSegments cs = cs.splitOn '.' := by
  unfold List.splitOn
  induction cs with
  | nil => rw [pathSegments, List.splitOnP_nil]
  | cons c cs ih =>
    rw [pathSegments, List.splitOnP_cons_eq_if_modifyHead, ← ih]
    by_cases hc : c = '.'
    · rw [if_pos hc, if_pos (beq_iff_eq.mpr hc)]
    · rw [if_neg hc, if_neg (fun h => hc (beq_iff_eq.mp h))]
      obtain ⟨segment, segments, h⟩ := List.exists_cons_of_ne_nil (Text.pathSegments_ne_nil cs)
      rw [h, List.modifyHead_cons]

theorem pathNames_ne_nil (path : String) : pathNames path ≠ [] :=
  mt List.map_eq_nil_iff.mp (Text.pathSegments_ne_nil path.toList)

theorem toList_foldl_pathUnder (names : List String) {parent : String} (h : parent ≠ "") :
    (names.foldl pathUnder parent).toList =
      ['.'].intercalate (parent.toList :: names.map String.toList) := by
  induction names generalizing parent with
  | nil => simp
  | cons name names ih =>
    have hunder : pathUnder parent name = parent ++ "." ++ name := if_neg h
    have hne : parent ++ "." ++ name ≠ "" := by simp [String.append_eq_empty_iff]
    rw [List.foldl_cons, hunder, ih hne]
    cases names <;> simp

theorem toList_pathOf {names : List String} (hne : names ≠ []) (h : ∀ name ∈ names, name ≠ "") :
    (pathOf names).toList = ['.'].intercalate (names.map String.toList) := by
  cases names with
  | nil => exact absurd rfl hne
  | cons name names => exact toList_foldl_pathUnder names (h name List.mem_cons_self)

theorem pathNames_pathOf {names : List String} (hne : names ≠ [])
    (h : ∀ name ∈ names, IsSegment name) : pathNames (pathOf names) = names := by
  have hpoints : ∀ cs ∈ names.map String.toList, '.' ∉ cs :=
    List.forall_mem_map.mpr fun name hname => (h name hname).2
  rw [pathNames, pathSegments_eq_splitOn, toList_pathOf hne fun name hname => (h name hname).1,
    List.splitOn_intercalate _ hpoints (mt List.map_eq_nil_iff.mp hne), List.map_map]
  simp [Function.comp_def]

theorem pathOf_pathNames {path : String} (h : ∀ name ∈ pathNames path, name ≠ "") :
    pathOf (pathNames path) = path := by
  apply String.toList_inj.mp
  rw [toList_pathOf (pathNames_ne_nil path) h, pathNames, pathSegments_eq_splitOn, List.map_map]
  simp [Function.comp_def, List.intercalate_splitOn]

example : pathNames "a.b" = ["a", "b"] ∧ pathOf ["", "a"] = "a" := by decide

namespace Value

mutual
/-- The names of the fields of a map, and of the maps in it. -/
def nestedNames : Value → List String
  | .map fields => nestedFieldNames fields
  | _ => []

def nestedFieldNames : List (String × Value) → List String
  | [] => []
  | (name, v) :: fields => name :: (nestedNames v ++ nestedFieldNames fields)
end

theorem mem_nestedFieldNames {fields : List (String × Value)} {name : String} :
    name ∈ nestedFieldNames fields ↔
      ∃ field ∈ fields, name = field.1 ∨ name ∈ field.2.nestedNames := by
  induction fields with
  | nil => simp [nestedFieldNames]
  | cons field fields ih => simp [nestedFieldNames, ih, or_assoc]

theorem isSome_descend?_cons {fields : Row} {name : String} {names : List String} :
    ((Value.map fields).descend? (name :: names)).isSome = true ↔
      ∃ v, Record.get? fields name = some v ∧ (v.descend? names).isSome = true := by
  rw [descend?]
  cases Record.get? fields name <;> simp

theorem mem_nestedNames_of_descend? {v : Value} {names : List String}
    (h : (v.descend? names).isSome = true) : ∀ name ∈ names, name ∈ v.nestedNames := by
  induction names generalizing v with
  | nil => exact List.forall_mem_nil _
  | cons name names ih =>
    cases v with
    | map fields =>
      obtain ⟨v, hget, hrest⟩ := isSome_descend?_cons.mp h
      have hmem := Record.mem_of_get? hget
      rw [nestedNames]
      refine List.forall_mem_cons.mpr ⟨?_, fun other hother => ?_⟩
      · exact mem_nestedFieldNames.mpr ⟨(name, v), hmem, .inl rfl⟩
      · exact mem_nestedFieldNames.mpr ⟨(name, v), hmem, .inr (ih hrest other hother)⟩
    | _ => cases h

end Value

theorem mem_fieldPaths_succ {levels : Nat} {parent path : String} {fields : Row} :
    path ∈ fieldPaths (levels + 1) parent fields ↔
      ∃ field ∈ fields, path = pathUnder parent field.1 ∨ ∃ inner, field.2 = .map inner ∧
        path ∈ fieldPaths levels (pathUnder parent field.1) inner := by
  rw [fieldPaths, List.mem_flatMap]
  refine exists_congr fun ⟨name, v⟩ => and_congr_right fun _ => ?_
  cases v <;> simp [pathUnder]

/-- The paths of some fields are made of the names that lead to a value within the levels. -/
theorem mem_fieldPaths_iff {levels : Nat} {parent path : String} {fields : Row}
    (h : (Value.map fields).All Value.DistinctNames) :
    path ∈ fieldPaths levels parent fields ↔ ∃ names, names ≠ [] ∧ names.length ≤ levels ∧
      ((Value.map fields).descend? names).isSome = true ∧ names.foldl pathUnder parent = path := by
  -- Each level takes one name off the front, and the parent grows by it.
  induction levels generalizing parent fields with
  | zero => simp [fieldPaths]
  | succ levels ih =>
    have hall := Value.all_map_iff.mp h
    rw [mem_fieldPaths_succ]
    constructor
    · rintro ⟨field, hfield, hpath⟩
      have hget := Record.get?_of_mem hall.1 hfield
      rcases hpath with rfl | ⟨inner, hinner, hpath⟩
      · exact ⟨[field.1], by simp, by simp, Value.isSome_descend?_cons.mpr ⟨_, hget, rfl⟩, rfl⟩
      · have hbelow := hall.2 field hfield
        rw [hinner] at hbelow hget
        obtain ⟨names, -, hlength, hsome, rfl⟩ := (ih hbelow).mp hpath
        exact ⟨field.1 :: names, by simp, by simpa using hlength,
          Value.isSome_descend?_cons.mpr ⟨_, hget, hsome⟩, rfl⟩
    · rintro ⟨names, hne, hlength, hsome, rfl⟩
      cases names with
      | nil => exact absurd rfl hne
      | cons name names =>
        obtain ⟨v, hget, hrest⟩ := Value.isSome_descend?_cons.mp hsome
        have hfield := Record.mem_of_get? hget
        refine ⟨(name, v), hfield, ?_⟩
        cases names with
        | nil => exact .inl rfl
        | cons next names =>
          cases v with
          | map inner =>
            have hbelow := hall.2 _ hfield
            exact .inr ⟨inner, rfl, (ih hbelow).mpr
              ⟨next :: names, by simp, by simpa using hlength, hrest, rfl⟩⟩
          | _ => cases hrest

namespace Rows

/-- Rows whose fields, and those of the maps nested in them, have different names that are
segments of paths. -/
structure Walkable (rows : List Row) : Prop where
  distinct : ∀ row ∈ rows, row.All Value.DistinctNames
  segments : ∀ row ∈ rows, ∀ name ∈ (Value.map row).nestedNames, IsSegment name

instance (rows : List Row) : Decidable (Walkable rows) :=
  decidable_of_iff ((∀ row ∈ rows, row.All Value.DistinctNames) ∧
      ∀ row ∈ rows, ∀ name ∈ (Value.map row).nestedNames, IsSegment name)
    ⟨fun h => ⟨h.1, h.2⟩, fun h => ⟨h.distinct, h.segments⟩⟩

variable {rows : List Row} {levels : Nat} {path : String}

theorem Walkable.take (h : Walkable rows) (n : Nat) : Walkable (rows.take n) :=
  ⟨fun row hrow => h.distinct row (List.mem_of_mem_take hrow),
    fun row hrow => h.segments row (List.mem_of_mem_take hrow)⟩

theorem mem_paths_iff (h : Walkable rows) :
    path ∈ paths levels rows ↔
      (pathNames path).length ≤ levels ∧ fieldExists path rows = true := by
  rw [paths, Text.sorted, List.mem_mergeSort, List.mem_eraseDups, List.mem_flatMap, fieldExists,
    List.any_eq_true]
  constructor
  · rintro ⟨row, hrow, hpath⟩
    obtain ⟨names, hne, hlength, hsome, rfl⟩ := (mem_fieldPaths_iff (h.distinct row hrow)).mp hpath
    have hnames : pathNames (pathOf names) = names := pathNames_pathOf hne fun name hname =>
      h.segments row hrow name (Value.mem_nestedNames_of_descend? hsome name hname)
    refine ⟨hnames.symm ▸ hlength, row, hrow, ?_⟩
    change ((Value.map row).descend? (pathNames (pathOf names))).isSome = true
    rwa [hnames]
  · rintro ⟨hlength, row, hrow, hsome⟩
    refine ⟨row, hrow, (mem_fieldPaths_iff (h.distinct row hrow)).mpr
      ⟨pathNames path, pathNames_ne_nil path, hlength, hsome, pathOf_pathNames fun name hname => ?_⟩⟩
    exact (h.segments row hrow name (Value.mem_nestedNames_of_descend? hsome name hname)).1

theorem pairwise_paths (levels : Nat) (rows : List Row) :
    (paths levels rows).Pairwise fun a b => Text.units a < Text.units b :=
  Text.pairwise_sorted_lt (Record.nodup_eraseDups _)

/-- Whether a number of levels is at most one more than a depth, where doubles are counted in
units of `2 ^ -1074`. -/
def WithinDepth (depth : Float) (n : Nat) : Prop :=
  n * Nat.pow 2 1074 ≤ Number.scaled (Number.magnitude depth) + Nat.pow 2 1074

theorem levels_of_rank {depth : Float} (hnumber : Number.isNaN depth = false)
    (hdepth : 0 ≤ Number.rank depth) :
    Rows.levels depth = Number.wholePart (Number.magnitude depth) + 1 := by
  have horder : Number.order depth (Number.ofNat 0) ≠ .lt := by
    rw [Number.order_zero hnumber, ne_eq, Int.compare_eq_lt]
    omega
  unfold Rows.levels
  rw [if_neg (fun h => horder (beq_iff_eq.mp h))]

theorem le_levels_iff {depth : Float} (hnumber : Number.isNaN depth = false)
    (hdepth : 0 ≤ Number.rank depth) {n : Nat} : n ≤ Rows.levels depth ↔ WithinDepth depth n := by
  rw [levels_of_rank hnumber hdepth, WithinDepth, Number.wholePart]
  generalize 1074 = unit
  rw [Nat.pow_eq, ← Nat.add_div_right _ (Nat.two_pow_pos unit),
    Nat.le_div_iff_mul_le (Nat.two_pow_pos unit)]

theorem levels_ofNat {n : Nat} (h : n < 2 ^ 53) : Rows.levels (Number.ofNat n) = n + 1 := by
  rw [levels_of_rank (Number.isNaN_ofNat n) (Number.rank_ofNat_nonneg n), Number.wholePart_ofNat h]

/-- A statement whose columns are all found in the first rows passes the check. -/
theorem checkFields_of_exists {settings : Settings} {s : Statement}
    (h : ∀ column ∈ s.selection.columns,
      fieldExists column (rows.take settings.fieldSampleRows) = true) :
    s.checkFields settings rows = .ok () := by
  have hnone : s.missingField? settings rows = none := by
    unfold Statement.missingField?
    split
    · rfl
    · refine List.find?_eq_none.mpr fun column hcolumn => ?_
      simp [h column hcolumn]
  unfold Statement.checkFields
  rw [hnone]

theorem exists_of_checkFields {settings : Settings} {s : Statement} {failure : Failure}
    (h : s.checkFields settings rows = .error failure) : ∃ field, failure =
      .unknownField field s.table (listNames (Number.ofNat settings.maxSuggestedFields)
        (paths (settings.suggestionDepth + 1) (rows.take settings.suggestionSampleRows))) := by
  unfold Statement.checkFields at h
  cases hfield : s.missingField? settings rows with
  | none =>
    rw [hfield] at h
    cases h
  | some field =>
    rw [hfield] at h
    exact ⟨field, (Except.error.inj h).symm⟩

/-- The paths that rows offer down to a depth are sorted, and they are those of at most one segment
more that resolve in some row. So where a field is not found, a statement of suggested fields
passes the check of the rows that they are taken from. -/
theorem paths_resolve (h : Walkable rows) :
    (∀ depth : Float, Number.isFinite depth = true → 0 ≤ Number.rank depth →
      (paths (Rows.levels depth) rows).Pairwise (fun a b => Text.units a < Text.units b) ∧
      ∀ path, path ∈ paths (Rows.levels depth) rows ↔
        WithinDepth depth (pathNames path).length ∧ fieldExists path rows = true) ∧
    ∀ (settings : Settings) (s : Statement) (failure : Failure),
      s.checkFields settings rows = .error failure →
      ∃ field offered,
        offered = paths (settings.suggestionDepth + 1) (rows.take settings.suggestionSampleRows) ∧
        failure =
          .unknownField field s.table (listNames (Number.ofNat settings.maxSuggestedFields) offered) ∧
        ∀ s' : Statement, (∀ column ∈ s'.selection.columns, column ∈ offered) →
          s'.checkFields { settings with fieldSampleRows := settings.suggestionSampleRows } rows =
            .ok () := by
  constructor
  · intro depth hfinite hdepth
    refine ⟨pairwise_paths _ rows, fun path => ?_⟩
    rw [mem_paths_iff h, le_levels_iff (Number.isNaN_of_isFinite hfinite) hdepth]
  · intro settings s failure hcheck
    obtain ⟨field, hfailure⟩ := exists_of_checkFields hcheck
    refine ⟨field, _, rfl, hfailure, fun s' hcolumns => checkFields_of_exists fun column hcolumn => ?_⟩
    exact ((mem_paths_iff (h.take _)).mp (hcolumns column hcolumn)).2

def placeRows : List Row :=
  [[("place", .map [("city", .string "Rome"), ("at", .map [("floor", .null)])])],
    [("name", .string "x")]]

/-- The statement that selects some columns of a table `t`. -/
def selecting (columns : List String) : Statement :=
  ⟨⟨columns, false, [], []⟩, "t", .all, [], [], none⟩

theorem paths_resolve_nested :
    ("place.at" ∈ paths (Rows.levels (Number.ofNat 1)) placeRows ∧
      "place.at.floor" ∉ paths (Rows.levels (Number.ofNat 1)) placeRows) ∧
    ∃ failure, (selecting ["city"]).checkFields {} placeRows = .error failure ∧
      (selecting ["place.city", "name"]).checkFields { fieldSampleRows := 3 } placeRows = .ok () := by
  have hwalkable : Walkable placeRows := by decide
  have hdepth (n : Nat) : WithinDepth (Number.ofNat 1) n ↔ n ≤ 2 := by
    rw [← le_levels_iff (Number.isNaN_ofNat 1) (Number.rank_ofNat_nonneg 1), levels_ofNat (by decide)]
  obtain ⟨hpaths, hsuggested⟩ := paths_resolve hwalkable
  have hmem := (hpaths _ (Number.isFinite_ofNat (n := 1) (by decide)) (Number.rank_ofNat_nonneg 1)).2
  refine ⟨⟨?_, ?_⟩, _, rfl, ?_⟩
  · rw [hmem, hdepth]
    decide
  · rw [hmem, hdepth]
    decide
  · obtain ⟨field, offered, rfl, -, hpass⟩ := hsuggested {} (selecting ["city"]) _ rfl
    have hfound : ∀ column ∈ ["place.city", "name"], (pathNames column).length ≤ 4 ∧
        fieldExists column (placeRows.take 3) = true := by decide
    exact hpass (selecting ["place.city", "name"]) fun column hcolumn =>
      (mem_paths_iff (hwalkable.take 3)).mpr (hfound column hcolumn)

end Rows
end TableQuery
