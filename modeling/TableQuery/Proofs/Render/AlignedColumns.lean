import Mathlib
import TableQuery.Proofs.Render.CsvReading
import TableQuery.Render.Aligned

/-! # Aligned columns

All lines of an aligned table are equally wide, and every column stands between the same two
places in each of them: the text first, then blanks, and a bar between columns. Places and widths
count 16-bit units. A line is split at one of its columns, from which all of this is read off.
-/
namespace TableQuery

namespace Text

@[simp] theorem units_append (a b : String) : units (a ++ b) = units a ++ units b := by
  unfold units
  rw [String.toList_append, List.flatMap_append]

theorem units_replicate {c : Char} (hc : charUnits c = [c.toNat]) (n : Nat) :
    units (String.ofList (List.replicate n c)) = List.replicate n c.toNat := by
  rw [units, String.toList_ofList, List.flatMap_replicate, hc, List.flatten_replicate_singleton]

theorem units_padRight (n : Nat) (s : String) :
    units (padRight n s) = units s ++ List.replicate (n - width s) ' '.toNat := by
  rw [padRight, units_append, units_replicate rfl]

theorem length_units_padRight {n : Nat} {s : String} (h : width s ≤ n) :
    (units (padRight n s)).length = n := by
  rw [units_padRight, List.length_append, List.length_replicate]
  exact Nat.add_sub_of_le h

theorem units_intercalate (separator : String) (texts : List String) :
    units (separator.intercalate texts) = (units separator).intercalate (texts.map units) := by
  induction texts with
  | nil => simp [units]
  | cons text texts ih =>
    cases texts with
    | nil => simp
    | cons next texts =>
      rw [String.intercalate_cons_cons, units_append, units_append, ih, List.map_cons,
        List.map_cons, List.map_cons, List.intercalate_cons_cons]

end Text

namespace Render.Aligned
open Csv (ownText)

def bar : List Nat := Text.units " | "

/-- Where a column starts: behind the columns before it, each with its bar. -/
def start (widths : List Nat) (i : Nat) : Nat := (widths.take i).sum + 3 * i

def total (widths : List Nat) : Nat := widths.sum + 3 * (widths.length - 1)

def slice (line : String) (place count : Nat) : List Nat :=
  ((Text.units line).drop place).take count

/-- A line shows texts in columns of the given widths, each filled up with blanks. -/
structure Shows (widths : List Nat) (line : String) (texts : List String) : Prop where
  columns : texts.length = widths.length
  width : Text.width line = total widths
  column : ∀ i text width, texts[i]? = some text → widths[i]? = some width →
    Text.width text ≤ width ∧ slice line (start widths i) width =
      Text.units text ++ List.replicate (width - Text.width text) ' '.toNat
  bars : ∀ i width, widths[i]? = some width → i + 1 < widths.length →
    slice line (start widths i + width) 3 = bar

theorem start_succ (width : Nat) (widths : List Nat) (i : Nat) :
    start (width :: widths) (i + 1) = width + 3 + start widths i := by
  unfold start
  rw [List.take_succ_cons, List.sum_cons]
  omega

theorem exists_intercalate_split {pieces : List (List Nat)} {i : Nat} {piece : List Nat}
    (h : pieces[i]? = some piece) :
    ∃ front back, bar.intercalate pieces = front ++ (piece ++ back) ∧
      front.length = start (pieces.map List.length) i ∧
      (i + 1 < pieces.length → ∃ rest, back = bar ++ rest) := by
  induction pieces generalizing i with
  | nil => cases h
  | cons first pieces ih =>
    cases i with
    | zero =>
      cases h
      cases pieces with
      | nil => exact ⟨[], [], by simp, rfl, fun h => absurd h (by simp)⟩
      | cons next pieces =>
        exact ⟨[], bar ++ bar.intercalate (next :: pieces),
          by rw [List.intercalate_cons_cons, List.append_assoc, List.nil_append], rfl,
          fun _ => ⟨_, rfl⟩⟩
    | succ i =>
      obtain ⟨front, back, hsplit, hfront, hback⟩ := ih h
      have hne : pieces ≠ [] := by
        rintro rfl
        cases h
      refine ⟨first ++ bar ++ front, back, ?_, ?_, fun hlast => hback (by simpa using hlast)⟩
      · rw [List.intercalate_cons_of_ne_nil hne, hsplit, List.append_assoc _ front]
      · rw [List.map_cons, start_succ, ← hfront, List.length_append, List.length_append]
        rfl

theorem length_intercalate {pieces : List (List Nat)} (hne : pieces ≠ []) :
    (bar.intercalate pieces).length = total (pieces.map List.length) := by
  induction pieces with
  | nil => exact absurd rfl hne
  | cons first pieces ih =>
    cases pieces with
    | nil => simp [total]
    | cons next pieces =>
      have hbar : bar.length = 3 := by decide
      rw [List.intercalate_cons_cons, List.length_append, List.length_append, hbar,
        ih (List.cons_ne_nil _ _)]
      simp only [total, List.map_cons, List.sum_cons, List.length_cons, List.length_map]
      omega

section
variable {names : List String} {width : String → Nat} {text : String → String}

theorem units_line :
    Text.units (line (names.map width) (names.map text)) =
      bar.intercalate
        (names.map fun name => Text.units (Text.padRight (width name) (text name))) := by
  rw [line, List.zipWith_map, List.zipWith_self, Text.units_intercalate, List.map_map]
  rfl

theorem shows_line (hne : names ≠ []) (hfit : ∀ name ∈ names, Text.width (text name) ≤ width name) :
    Shows (names.map width) (line (names.map width) (names.map text)) (names.map text) := by
  have hlengths : (names.map fun name =>
      Text.units (Text.padRight (width name) (text name))).map List.length = names.map width := by
    rw [List.map_map]
    exact List.map_congr_left fun name hname => Text.length_units_padRight (hfit name hname)
  have hsplit (i : Nat) (name : String) (hname : names[i]? = some name) :
      ∃ front back, Text.units (line (names.map width) (names.map text)) =
          front ++ (Text.units (Text.padRight (width name) (text name)) ++ back) ∧
        front.length = start (names.map width) i ∧
        (i + 1 < names.length → ∃ rest, back = bar ++ rest) := by
    have hpiece : (names.map fun name =>
        Text.units (Text.padRight (width name) (text name)))[i]? =
          some (Text.units (Text.padRight (width name) (text name))) := by
      rw [List.getElem?_map, hname, Option.map_some]
    obtain ⟨front, back, hunits, hfront, hback⟩ := exists_intercalate_split hpiece
    rw [hlengths] at hfront
    exact ⟨front, back, units_line.trans hunits, hfront, by simpa using hback⟩
  constructor
  · rw [List.length_map, List.length_map]
  · rw [Text.width, units_line, length_intercalate (by simpa using hne), hlengths]
  · intro i shown w htext hwidth
    rw [List.getElem?_map, Option.map_eq_some_iff] at htext hwidth
    obtain ⟨name, hname, rfl⟩ := htext
    obtain ⟨other, hother, rfl⟩ := hwidth
    cases hname.symm.trans hother
    have hwide := hfit name (List.mem_of_getElem? hname)
    obtain ⟨front, back, hunits, hfront, -⟩ := hsplit i name hname
    refine ⟨hwide, ?_⟩
    rw [slice, hunits, List.drop_left' hfront, List.take_left' (Text.length_units_padRight hwide),
      Text.units_padRight]
  · intro i w hwidth hlast
    rw [List.getElem?_map, Option.map_eq_some_iff] at hwidth
    obtain ⟨name, hname, rfl⟩ := hwidth
    have hwide := hfit name (List.mem_of_getElem? hname)
    obtain ⟨front, back, hunits, hfront, hback⟩ := hsplit i name hname
    obtain ⟨rest, rfl⟩ := hback (by simpa using hlast)
    have hplace : (front ++ Text.units (Text.padRight (width name) (text name))).length =
        start (names.map width) i + width name := by
      rw [List.length_append, hfront, Text.length_units_padRight hwide]
    rw [slice, hunits, ← List.append_assoc, List.drop_left' hplace]
    exact List.take_left' (by decide)

theorem mem_of_mem_intercalate {separator : List Char} {texts : List (List Char)} {c : Char}
    (h : c ∈ separator.intercalate texts) : c ∈ separator ∨ ∃ text ∈ texts, c ∈ text := by
  induction texts with
  | nil => simp at h
  | cons first texts ih =>
    cases texts with
    | nil => exact .inr ⟨first, List.mem_cons_self, by simpa using h⟩
    | cons next texts =>
      rw [List.intercalate_cons_cons, List.mem_append, List.mem_append] at h
      rcases h with (h | h) | h
      · exact .inr ⟨first, List.mem_cons_self, h⟩
      · exact .inl h
      · rcases ih h with h | ⟨other, hother, h⟩
        · exact .inl h
        · exact .inr ⟨other, List.mem_cons_of_mem _ hother, h⟩

theorem notMem_line (h : ∀ name ∈ names, '\n' ∉ (text name).toList) :
    '\n' ∉ (line (names.map width) (names.map text)).toList := by
  rw [line, List.zipWith_map, List.zipWith_self, String.toList_intercalate, List.map_map]
  intro hmem
  rcases mem_of_mem_intercalate hmem with hbar | ⟨padded, hpadded, hmem⟩
  · exact absurd hbar (by decide)
  · obtain ⟨name, hname, rfl⟩ := List.mem_map.mp hpadded
    rw [Function.comp_apply, Text.padRight, String.toList_append, String.toList_ofList,
      List.mem_append] at hmem
    rcases hmem with hmem | hmem
    · exact h name hname hmem
    · exact absurd (List.eq_of_mem_replicate hmem) (by decide)

end

theorem max?_columnWidth (name : String) (cells : List String) :
    ((name :: cells).map Text.width).max? = some (columnWidth name cells) := by
  rw [List.map_cons, List.max?_cons', List.foldl_map]
  rfl

theorem width_le_columnWidth {name text : String} {cells : List String}
    (h : text ∈ name :: cells) : Text.width text ≤ columnWidth name cells :=
  (List.max?_eq_some_iff.mp (max?_columnWidth name cells)).2 _ (List.mem_map_of_mem h)

theorem widths_eq (names : List String) (rows : List Row) :
    widths names (rows.map fun row => names.map (ownText row)) =
      names.map fun name => columnWidth name (rows.map (ownText · name)) := by
  have hcolumn (entry : String × Nat) (h : entry ∈ names.zipIdx) :
      (rows.map fun row => names.map (ownText row)).filterMap (·[entry.2]?) =
        rows.map (ownText · entry.1) := by
    have hcell : (fun row : Row => (names.map (ownText row))[entry.2]?) =
        some ∘ (ownText · entry.1) := by
      funext row
      rw [List.getElem?_map, List.mem_zipIdx_iff_getElem?.mp h]
      rfl
    rw [List.filterMap_map, ← List.filterMap_eq_map, ← hcell]
    rfl
  calc widths names (rows.map fun row => names.map (ownText row))
    _ = names.zipIdx.map ((fun name => columnWidth name (rows.map (ownText · name))) ∘ Prod.fst) :=
      List.map_congr_left fun entry h => congrArg (columnWidth entry.1) (hcolumn entry h)
    _ = names.map fun name => columnWidth name (rows.map (ownText · name)) := by
      rw [← List.map_map, List.zipIdx_map_fst]

/-- How a table is laid out: a header, a line of dashes, and one line for each row, all equally
wide, with every column as wide as its name or its widest cell. -/
structure Layout (names : List String) (rows : List Row) (widths : List Nat)
    (lines : List String) : Prop where
  count : lines.length = rows.length + 2
  level : ∀ line ∈ lines, Text.width line = total widths
  widest : widths.map some =
    names.map fun name => ((name :: rows.map (ownText · name)).map Text.width).max?
  header : ∃ line, lines[0]? = some line ∧ Shows widths line names
  rule : lines[1]? = some (dashes (total widths))
  body : ∀ (j : Nat) (row : Row), rows[j]? = some row →
    ∃ line, lines[j + 2]? = some line ∧ Shows widths line (names.map (ownText row))

theorem text_eq_ok {noted : Record.Noted} {first : Row} {rest : List Row}
    (h : ∀ name ∈ Record.names first, noted.answers name = false) :
    text noted (first :: rest) = .ok (ofLines (Record.names first)
      ((first :: rest).map fun row => (Record.names first).map (ownText row))) := by
  have hlines : ((first :: rest).mapM fun row =>
        (Record.names first).mapM (cell noted "length" row)) =
      .ok ((first :: rest).map fun row => (Record.names first).map (ownText row)) :=
    Success.mapM_eq_ok fun row _ =>
      Success.mapM_eq_ok fun name hname => Csv.cell_eq_ok "length" row (h name hname)
  unfold text columns
  rw [if_neg (by simp)]
  dsimp only
  rw [hlines]
  rfl

theorem width_dashes (n : Nat) : Text.width (dashes n) = n := by
  rw [Text.width, dashes, Text.units_replicate rfl, List.length_replicate]

def tableLines (names : List String) (rows : List Row) (width : String → Nat) : List String :=
  line (names.map width) names :: dashes (total (names.map width)) ::
    rows.map fun row => line (names.map width) (names.map (ownText row))

section
variable {names : List String} {rows : List Row} {width : String → Nat}

theorem layout_tableLines (hne : names ≠ [])
    (hwidth : width = fun name => columnWidth name (rows.map (ownText · name))) :
    Layout names rows (names.map width) (tableLines names rows width) := by
  have hheader : Shows (names.map width) (line (names.map width) names) names := by
    have hfit : ∀ name ∈ names, Text.width (id name) ≤ width name := fun name _ => by
      rw [hwidth]
      exact width_le_columnWidth List.mem_cons_self
    have hshows := shows_line hne hfit
    rwa [List.map_id] at hshows
  have hrow (row : Row) (h : row ∈ rows) : Shows (names.map width)
      (line (names.map width) (names.map (ownText row))) (names.map (ownText row)) := by
    refine shows_line hne fun name _ => ?_
    rw [hwidth]
    exact width_le_columnWidth (List.mem_cons_of_mem _ (List.mem_map_of_mem h))
  constructor
  · simp [tableLines]
  · intro shown hshown
    rcases List.mem_cons.mp hshown with rfl | hshown
    · exact hheader.width
    rcases List.mem_cons.mp hshown with rfl | hshown
    · exact width_dashes _
    · obtain ⟨row, h, rfl⟩ := List.mem_map.mp hshown
      exact (hrow row h).width
  · rw [hwidth, List.map_map]
    exact List.map_congr_left fun name _ => (max?_columnWidth name _).symm
  · exact ⟨_, rfl, hheader⟩
  · rfl
  · intro j row h
    refine ⟨_, ?_, hrow row (List.mem_of_getElem? h)⟩
    rw [tableLines, List.getElem?_cons_succ, List.getElem?_cons_succ, List.getElem?_map, h]
    rfl

theorem notMem_tableLines (hnames : ∀ name ∈ names, '\n' ∉ name.toList)
    (hcells : ∀ row ∈ rows, ∀ name ∈ names, '\n' ∉ (ownText row name).toList) :
    ∀ shown ∈ tableLines names rows width, '\n' ∉ shown.toList := by
  intro shown hshown
  rcases List.mem_cons.mp hshown with rfl | hshown
  · have hheader : '\n' ∉ (line (names.map width) (names.map id)).toList := notMem_line hnames
    rwa [List.map_id] at hheader
  rcases List.mem_cons.mp hshown with rfl | hshown
  · rw [dashes, String.toList_ofList]
    exact fun hmem => absurd (List.eq_of_mem_replicate hmem) (by decide)
  · obtain ⟨row, h, rfl⟩ := List.mem_map.mp hshown
    exact notMem_line (hcells row h)

end

example : (text {} [[("n", .string "a😀"), ("x", .null)], [("x", .bool true)]]).toOption =
    some "n   | x   \n----------\na😀 |     \n    | true" := by decide +kernel

end Render.Aligned
end TableQuery
