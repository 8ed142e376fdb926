import TableQuery.Proofs.Query.SelectedItem
import TableQuery.Proofs.Session.Outcome

/-! # Renamed columns

An alias names the column of a path anew. It shows the values of the path in all rows that
have no field of the alias's own name; in any other row it shows that field, so renaming keeps
the data exactly where the two agree.
-/
namespace TableQuery

/-- Whether a row shows the same under a path and under the alias of that path. -/
structure Row.Renames (path name : String) (row : Row) : Prop where
  shown : name = "__proto__" ↔ path = "__proto__"
  same : name ≠ "__proto__" → Record.has row name = true →
    (row.column name).toPlain = (row.column path).toPlain

namespace Record

theorem get?_toPlain_set (name : String) (v : Value) :
    get? (Row.toPlain (set [] name v)) name =
      if name = "__proto__" then none else some v.toPlain := by
  rw [Row.get?_toPlain (Proper.nil.set name v), get?_set]
  by_cases hproto : name = "__proto__" <;> simp [hproto, get?]

end Record

namespace Selection

theorem valueOf_path (path : String) (row : Row) :
    (one path []).valueOf row path = row.column path := rfl

theorem valueOf_alias (path name : String) (row : Row) :
    (one name [(name, path)]).valueOf row name =
      if Record.has row name then row.column name else row.column path := by
  unfold valueOf one
  simp [Entries.has]

end Selection

namespace Statement

theorem selecting_path (path rest : String) : "SELECT " ++ path ++ " FROM " ++ rest =
    String.ofList (selecting path.toList rest.toList) := by
  have hselect : "SELECT ".toList = "SELECT".toList ++ [' '] := by decide
  have hsource : " FROM ".toList = ' ' :: ("FROM".toList ++ [' ']) := by decide
  apply String.toList_inj.mp
  rw [String.toList_ofList]
  unfold selecting
  simp only [String.toList_append, hselect, hsource, List.append_assoc, List.cons_append,
    List.nil_append]

theorem selecting_alias (path name rest : String) :
    "SELECT " ++ path ++ " AS " ++ name ++ " FROM " ++ rest = String.ofList
      (selecting (path.toList ++ " AS".toList ++ ' ' :: name.toList) rest.toList) := by
  have halias : (path ++ " AS " ++ name).toList =
      path.toList ++ " AS".toList ++ ' ' :: name.toList := by
    have hword : " AS ".toList = " AS".toList ++ [' '] := by decide
    simp only [String.toList_append, hword, List.append_assoc, List.cons_append, List.nil_append]
  rw [← halias]
  refine Eq.trans ?_ (selecting_path _ _)
  simp only [String.append_assoc]

def kept (s : Statement) (limit : Float) (rows : List Row) : List Row :=
  Limit.cut (Limit.effective s.limit limit) (s.filtered rows)

/-- A statement of one column without groups and order shows that column of the rows it keeps. -/
theorem answer_one {s : Statement} {column : String} {aliases : List (String × String)}
    (hs : s.selection = .one column aliases) (hstar : s.selection.isStar = false)
    (hgroup : s.group = []) (horder : s.order = []) (limit : Float) (rows : List Row) :
    s.answer limit rows =
      (s.kept limit rows).map fun row => Record.set [] column (s.selection.valueOf row column) := by
  have hcalls : s.selection.calls = [] := by rw [hs]; rfl
  have hdistinct : s.selection.distinct = false := by rw [hs]; rfl
  have hfound : s.found rows = s.filtered rows := by
    simp [found, isGrouped, ordered, distinctRows, Rows.sort, hgroup, horder, hcalls, hdistinct]
  have hcolumns : s.selection.columns = [column] := by rw [hs]; rfl
  simp [answer, projected, kept, Rows.project, hfound, hstar, hcalls, hcolumns]

theorem shown_answer_one {s : Statement} {column : String} {aliases : List (String × String)}
    (hs : s.selection = .one column aliases) (hstar : s.selection.isStar = false)
    (hgroup : s.group = []) (horder : s.order = []) (limit : Float) (rows : List Row) :
    (((s.answer limit rows).map Row.toPlain).map (Record.get? · column)) =
      (s.kept limit rows).map fun row => if column = "__proto__" then none else
        some (s.selection.valueOf row column).toPlain := by
  rw [answer_one hs hstar hgroup horder, List.map_map, List.map_map]
  exact List.map_congr_left fun row _ => Record.get?_toPlain_set column _

end Statement

theorem Row.renames_iff {path name : String} {row : Row} : row.Renames path name ↔
    (if name = "__proto__" then none else
      some (if Record.has row name then row.column name else row.column path).toPlain) =
    (if path = "__proto__" then none else some (row.column path).toPlain) := by
  constructor
  · rintro ⟨hshown, hsame⟩
    by_cases hname : name = "__proto__"
    · rw [if_pos hname, if_pos (hshown.mp hname)]
    · rw [if_neg hname, if_neg (fun hpath => hname (hshown.mpr hpath))]
      by_cases hhas : Record.has row name = true
      · rw [if_pos hhas, hsame hname hhas]
      · rw [if_neg hhas]
  · intro h
    refine ⟨⟨fun hname => ?_, fun hpath => ?_⟩, fun hname hhas => ?_⟩
    · rw [if_pos hname] at h
      split at h
      · assumption
      · cases h
    · rw [if_pos hpath] at h
      split at h
      · assumption
      · cases h
    · rw [if_neg hname, if_pos hhas] at h
      split at h
      · cases h
      · exact Option.some.inj h

namespace Engine

/-- A column and its renaming, selected from one source, have the same number of rows, and the
same values exactly where every row that is kept has no other value under the alias. -/
theorem renamed_iff {e : Engine} {p : Provider} {path name rest f f' : String}
    {limit : Option Float} {j j' : Journal} {data data' : List PlainRow}
    (hp : Text.isFieldPath path.toList = true) (hn : Text.isName name.toList = true)
    (h : ((e.execute p ("SELECT " ++ path ++ " FROM " ++ rest) limit f).run j).1.jsonRows? =
      some data)
    (h' : ((e.execute p ("SELECT " ++ path ++ " AS " ++ name ++ " FROM " ++ rest) limit f').run
      j').1.jsonRows? = some data') :
    ∃ s rows, e.Answers p ("SELECT " ++ path ++ " FROM " ++ rest) s rows ∧
      (s.group = [] → s.order = [] → data'.length = data.length ∧
        (data'.map (Record.get? · name) = data.map (Record.get? · path) ↔
          ∀ row ∈ s.kept (e.limitOr limit) rows, row.Renames path name)) := by
  obtain ⟨s, rows, hanswers, rfl⟩ := answers_of_jsonRows? h
  obtain ⟨t, rows', hanswers', rfl⟩ := answers_of_jsonRows? h'
  refine ⟨s, rows, hanswers, fun hgroup horder => ?_⟩
  have hread := hanswers.read
  have hread' := hanswers'.read
  rw [Statement.selecting_path] at hread
  rw [Statement.selecting_alias] at hread'
  obtain ⟨hselection, ht⟩ := Statement.read_path_alias hp hn hread hread'
  rw [String.ofList_toList] at hselection
  rw [String.ofList_toList, String.ofList_toList] at ht
  have hselection' : t.selection = .one name [(name, path)] := by rw [ht]
  have htable : t.table = s.table := by rw [ht]
  have hkept : t.kept = s.kept := by rw [ht]; rfl
  have hgroup' : t.group = [] := by rw [ht, hgroup]
  have horder' : t.order = [] := by rw [ht, horder]
  have hrows : rows' = rows :=
    Except.ok.inj (hanswers'.fetched.symm.trans (htable ▸ hanswers.fetched))
  have hstar : s.selection.isStar = false := hselection ▸ Selection.isStar_one hp []
  have hstar' : t.selection.isStar = false :=
    hselection' ▸ Selection.isStar_one (Text.isFieldPath_of_isName hn) _
  have hshown := Statement.shown_answer_one hselection hstar hgroup horder (e.limitOr limit) rows
  have hshown' :=
    Statement.shown_answer_one hselection' hstar' hgroup' horder' (e.limitOr limit) rows'
  rw [hselection] at hshown
  rw [hselection', hkept, hrows] at hshown'
  constructor
  · have hlength := congrArg List.length hshown
    have hlength' := congrArg List.length hshown'
    simp only [List.length_map] at hlength hlength' ⊢
    rw [hrows]
    omega
  · rw [hrows, hshown', hshown, List.map_inj_left]
    refine forall_congr' fun row => imp_congr_right fun _ => ?_
    rw [Selection.valueOf_alias, Selection.valueOf_path, Row.renames_iff]

theorem renamed_iff_nested : ∃ data data',
    (Response.overRow [("p", .map [("q", .string "x")])]
      ("SELECT " ++ "p.q" ++ " FROM " ++ "t")).jsonRows? = some data ∧
    (Response.overRow [("p", .map [("q", .string "x")])]
      ("SELECT " ++ "p.q" ++ " AS " ++ "a" ++ " FROM " ++ "t")).jsonRows? = some data' ∧
    ∃ s rows, (Engine.mk {}).Answers (.ofRow [("p", .map [("q", .string "x")])])
        ("SELECT " ++ "p.q" ++ " FROM " ++ "t") s rows ∧
      (s.group = [] → s.order = [] → data'.length = data.length ∧
        (data'.map (Record.get? · "a") = data.map (Record.get? · "p.q") ↔
          ∀ row ∈ s.kept ((Engine.mk {}).limitOr none) rows, row.Renames "p.q" "a")) := by
  have hsome : (Response.overRow [("p", .map [("q", .string "x")])]
      ("SELECT " ++ "p.q" ++ " FROM " ++ "t")).jsonRows?.isSome = true := by decide +kernel
  have hsome' : (Response.overRow [("p", .map [("q", .string "x")])]
      ("SELECT " ++ "p.q" ++ " AS " ++ "a" ++ " FROM " ++ "t")).jsonRows?.isSome = true := by
    decide +kernel
  obtain ⟨data, hdata⟩ := Option.isSome_iff_exists.mp hsome
  obtain ⟨data', hdata'⟩ := Option.isSome_iff_exists.mp hsome'
  exact ⟨data, data', hdata, hdata', renamed_iff (by decide) (by decide) hdata hdata'⟩

def text? : Option Plain → Option String
  | some (.string s) => some s
  | _ => none

/-- A field with the name of the alias is shown in place of the path. -/
theorem not_renamed : ¬ ∀ (e : Engine) (p : Provider) (path name rest f f' : String)
    (limit : Option Float) (j j' : Journal) (data data' : List PlainRow) (s : Statement),
    Text.isFieldPath path.toList = true → Text.isName name.toList = true →
    Statement.read ("SELECT " ++ path ++ " FROM " ++ rest) = .ok s → s.group = [] → s.order = [] →
    ((e.execute p ("SELECT " ++ path ++ " FROM " ++ rest) limit f).run j).1.jsonRows? = some data →
    ((e.execute p ("SELECT " ++ path ++ " AS " ++ name ++ " FROM " ++ rest) limit f').run
      j').1.jsonRows? = some data' →
    data'.map (Record.get? · name) = data.map (Record.get? · path) := by
  intro h
  have htexts : (Response.overRow [("p", .string "x"), ("a", .string "y")]
      ("SELECT " ++ "p" ++ " FROM " ++ "t")).jsonRows?.map
        (·.map fun row => text? (Record.get? row "p")) = some [some "x"] := by
    decide +kernel
  have htexts' : (Response.overRow [("p", .string "x"), ("a", .string "y")]
      ("SELECT " ++ "p" ++ " AS " ++ "a" ++ " FROM " ++ "t")).jsonRows?.map
        (·.map fun row => text? (Record.get? row "a")) = some [some "y"] := by
    decide +kernel
  obtain ⟨data, hdata, htexts⟩ := Option.map_eq_some_iff.mp htexts
  obtain ⟨data', hdata', htexts'⟩ := Option.map_eq_some_iff.mp htexts'
  obtain ⟨s, rows, hanswers, -⟩ := answers_of_jsonRows? hdata
  have hclauses : (Statement.read ("SELECT " ++ "p" ++ " FROM " ++ "t")).toOption.map
      (fun s => (s.group, s.order)) = some ([], []) := by
    decide +kernel
  rw [hanswers.read] at hclauses
  obtain ⟨hgroup, horder⟩ := Prod.mk.inj (Option.some.inj hclauses)
  have hall := h _ _ _ _ _ _ _ _ _ _ _ _ _ (by decide) (by decide) hanswers.read hgroup horder
    hdata hdata'
  have hshown := congrArg (List.map text?) hall
  rw [List.map_map, List.map_map] at hshown
  have hsame := htexts'.symm.trans (hshown.trans htexts)
  exact absurd hsame (by decide)

end Engine
end TableQuery
