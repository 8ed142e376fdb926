import TableQuery.Proofs.Data.Success
import TableQuery.Proofs.Query.Keyword
import TableQuery.Proofs.Query.SingleColumn
import TableQuery.Query.Statement

/-! # Queries with the same text behind the select list

The end of a query is cut without regard to what stands in front of FROM, as long as no word
of the select list is a clause keyword itself. So a path and the same path with an alias,
selected in front of one text, are read as statements that differ in their columns only.
-/
namespace TableQuery
namespace Outline
open Text Nesting

/-- A text without the blanks and semicolons that a query may end in. -/
def ending (cs : List Char) : List Char :=
  trimEnd ((trimEnd cs).reverse.dropWhile (· == ';')).reverse

theorem dropWhile_reverse_append {p : Char → Bool} {u : List Char} (hn : u ≠ [])
    (h : ∀ c ∈ u.getLast?, p c = false) (x : List Char) :
    ((u ++ x).reverse.dropWhile p).reverse = u ++ (x.reverse.dropWhile p).reverse := by
  obtain ⟨c, cs, hrev⟩ := List.exists_cons_of_ne_nil (fun h => hn (List.reverse_eq_nil_iff.mp h))
  have hc : p c = false := h c (by rw [← List.head?_reverse, hrev]; rfl)
  have hu : u = (c :: cs).reverse := by rw [← hrev, List.reverse_reverse]
  have hstop : (c :: cs).dropWhile p = c :: cs := List.dropWhile_cons_of_neg (by simp [hc])
  rw [List.reverse_append, hrev, List.dropWhile_append, hstop, hu]
  split
  · next hall =>
    rw [List.isEmpty_iff.mp hall]
    simp
  · simp

theorem body_append {u : List Char} (hu : IsTrimmed u) (hn : u ≠ [])
    (hl : u.getLast? ≠ some ';') (x : List Char) :
    body (String.ofList (u ++ x)) = u ++ ending x := by
  have htrim (y : List Char) : trim (u ++ y) = u ++ trimEnd y := by
    rw [trim, trimStart_of_head (hu.head_append hn y)]
    exact dropWhile_reverse_append hn hu.2 y
  have hsemicolon : ∀ c ∈ u.getLast?, (c == ';') = false := by
    intro c hc
    rw [beq_eq_false_iff_ne]
    rintro rfl
    exact hl hc
  rw [body, String.toList_ofList, htrim, dropWhile_reverse_append hn hsemicolon, htrim]
  rfl

theorem wordEnds_ending (cs : List Char) : wordEnds (ending (' ' :: cs)) = true := by
  have hfront (p : Char → Bool) (y : List Char) : (y.reverse.dropWhile p).reverse <+: y := by
    rw [← List.reverse_suffix, List.reverse_reverse]
    exact List.dropWhile_suffix p
  have hending : ending (' ' :: cs) <+: ' ' :: cs :=
    ((hfront isBlank _).trans (hfront (· == ';') _)).trans (hfront isBlank _)
  generalize ending (' ' :: cs) = tail at hending
  cases tail with
  | nil => rfl
  | cons c tail =>
    obtain ⟨rest, hrest⟩ := hending
    cases (List.cons.inj hrest).1
    rfl

variable {w after before : List Char} {clause : Clause}

theorem isKeyword_of_keyword? (hb : ∀ c ∈ w, isBlank c = false) (he : wordEnds after = true)
    (hby : word? "BY".toList (trimStart after) = none) {length : Nat}
    (h : keyword? (w ++ after) = some (clause, length)) : IsKeyword clause w := by
  obtain ⟨keyword, rest, hcs, ⟨hc, hspells⟩, hend, -⟩ := keyword?_eq_some_iff.mp h
  have hword := (clauseWord?_eq_some_iff hc).mpr ⟨keyword, hcs, hspells⟩
  obtain ⟨b, rfl, hb'⟩ :=
    clauseWord?_of_append (fun c hl => hb c (List.mem_of_getLast? hl)) he hby hword
  obtain ⟨keyword, rfl, hspells⟩ := (clauseWord?_eq_some_iff hc).mp hb'
  cases b with
  | nil =>
    rw [List.append_nil]
    exact ⟨hc, hspells⟩
  | cons c b =>
    rw [List.cons_append, wordEnds, hb c (by simp)] at hend
    cases hend

/-- A word that is no keyword but perhaps SELECT is passed over in a select list. -/
theorem passes_word (hb : ∀ c ∈ w, isBlank c = false) (ho : ∀ c ∈ w, isOrdinary c = true)
    (hn : w ≠ []) (he : wordEnds after = true)
    (hby : word? "BY".toList (trimStart after) = none)
    (hk : ∀ clause, IsKeyword clause w → clause = .select) :
    Passes findKeyword [.select] [.select] after true w := by
  cases hfound : keyword? (w ++ after) with
  | none =>
    refine passes_of_quiet (quiet_of_noBlank hb fun _ => ?_) (balanced_of_ordinary ho)
    rw [findKeyword, hfound]
    rfl
  | some found =>
    obtain ⟨clause, length⟩ := found
    have hkeyword := isKeyword_of_keyword? hb he hby hfound
    obtain rfl := hk clause hkeyword
    have hname : ∀ c ∈ w, isNameChar c = true := by
      intro c hc
      refine (hkeyword.mem c hc).resolve_right ?_
      rw [hb c hc]
      exact Bool.false_ne_true
    have hkept : findKeyword [.select] (w ++ after) = some ([.select], none, length) := by
      rw [findKeyword, hfound]
      rfl
    exact passes_of_keep hname hn hkept

theorem passes_space (after : List Char) (start : Bool) :
    Passes findKeyword [.select] [.select] after start [' '] :=
  passes_gap (findKeyword_blank _) isGap_space

theorem passes_as (after : List Char) :
    Passes findKeyword [.select] [.select] after false " AS ".toList := by
  have hword : Passes findKeyword [.select] [.select] (' ' :: after) true "AS".toList :=
    passes_of_quiet (quiet_of_noBlank (by decide) fun _ => rfl) (by decide)
  exact (passes_space _ _).append (hword.append (passes_space _ _))

/-- The select list is cut at its last word, or else that word is no keyword, and what stands
behind FROM is cut without regard to the select list. -/
theorem select_of_cutWords {tail select source : List Char} {cuts : List (Clause × List Char)}
    (hbefore : Passes findKeyword [.select] [.select] (w ++ ' ' :: ("FROM".toList ++ tail)) true
      before) (hstart : startBehind true before = true) (hb : ∀ c ∈ w, isBlank c = false)
    (ho : ∀ c ∈ w, isOrdinary c = true) (hn : w ≠ []) (ht : wordEnds tail = true)
    (h : cutWords findKeyword (.outside 0) true 0 []
      ("SELECT".toList ++ ' ' :: (before ++ (w ++ ' ' :: ("FROM".toList ++ tail)))) =
        ([], (.select, select) :: (.source, source) :: cuts)) :
    select = ' ' :: before ∨ (∀ clause, IsKeyword clause w → clause = .select) ∧
      select = ' ' :: (before ++ (w ++ [' '])) ∧
      cutWords findKeyword (.outside 0) false 0 [.source, .select] tail = (source, cuts) := by
  have hfirst := passes_space (before ++ (w ++ ' ' :: ("FROM".toList ++ tail))) false
  have hlast := passes_space ("FROM".toList ++ tail) false
  have hspace : startBehind false [' '] = true := by decide
  have hend := startBehind_of_last hn (isTrimmed_of_forall hb).2 true
  have hselect : IsKeyword .select "SELECT".toList := by decide
  have hsource : IsKeyword .source "FROM".toList := by decide
  unfold Passes at hbefore hfirst hlast
  rw [hspace] at hfirst hlast
  rw [hstart] at hbefore
  rw [List.singleton_append] at hfirst hlast
  rw [cutWords_keyword hselect (by simp) rfl, hfirst, hbefore] at h
  by_cases hk : ∀ clause, IsKeyword clause w → clause = .select
  · right
    have hword : Passes findKeyword [.select] [.select] (' ' :: ("FROM".toList ++ tail)) true w :=
      passes_word hb ho hn rfl rfl hk
    unfold Passes at hword
    rw [hword, hend, hlast, cutWords_keyword hsource (by simp) ht] at h
    cases h
    exact ⟨hk, by simp, rfl⟩
  · left
    obtain ⟨clause, hclause⟩ := Classical.not_forall.mp hk
    obtain ⟨hkeyword, hne⟩ := Classical.not_imp.mp hclause
    rw [cutWords_keyword hkeyword (by simpa using hne) rfl] at h
    cases h
    simp

theorem cuts_of_ofQuery {query : String} {outline : Outline} (h : ofQuery query = .ok outline) :
    ∃ select source cuts, cutWords findKeyword (.outside 0) true 0 [] (body query) =
        ([], (.select, select) :: (.source, source) :: cuts) ∧
      misplaced? (.select :: .source :: cuts.map (·.1)) = none ∧ isName (trim source) = true ∧
      outline = {
        select := String.ofList (trim select)
        source := String.ofList (trim source)
        filter := textOf? cuts .filter
        group := textOf? cuts .group
        order := textOf? cuts .order
        limit := textOf? cuts .limit } := by
  unfold ofQuery at h
  dsimp only at h
  split at h
  · cases h
  obtain ⟨u, -, h⟩ := Success.of_bind h
  split at h
  · next select source cuts hcuts =>
    split at h
    · cases h
    next hplaced =>
    split at h
    · cases h
    split at h
    · cases h
    next hname =>
    exact ⟨select, source, cuts, hcuts, hplaced, by simpa using hname, (Except.ok.inj h).symm⟩
  · cases h

end Outline

namespace Statement
open Text Nesting Outline

/-- A statement has its table and clauses from the pieces of a query behind FROM. -/
structure Follows (s : Statement) (source : List Char) (cuts : List (Clause × List Char)) :
    Prop where
  table : s.table = String.ofList (trim source)
  filter : optional .all Filter.read (textOf? cuts .filter) = .ok s.filter
  group : optional [] Query.readGroup (textOf? cuts .group) = .ok s.group
  order : optional [] SortKey.readList (textOf? cuts .order) = .ok s.order
  limit : optional none (fun cs => (Query.readLimit cs).map some) (textOf? cuts .limit) =
    .ok s.limit

theorem Follows.unique {s t : Statement} {source : List Char} {cuts : List (Clause × List Char)}
    (hs : s.Follows source cuts) (ht : t.Follows source cuts) :
    t = { s with selection := t.selection } := by
  obtain ⟨selection, table, filter, group, order, limit⟩ := t
  have htable : table = s.table := ht.table.trans hs.table.symm
  have hfilter : filter = s.filter := Except.ok.inj (ht.filter.symm.trans hs.filter)
  have hgroup : group = s.group := Except.ok.inj (ht.group.symm.trans hs.group)
  have horder : order = s.order := Except.ok.inj (ht.order.symm.trans hs.order)
  have hlimit : limit = s.limit := Except.ok.inj (ht.limit.symm.trans hs.limit)
  rw [htable, hfilter, hgroup, horder, hlimit]

theorem cuts_of_read {query : String} {s : Statement} (h : Statement.read query = .ok s) :
    ∃ select source cuts, cutWords findKeyword (.outside 0) true 0 [] (body query) =
        ([], (.select, select) :: (.source, source) :: cuts) ∧
      Selection.read (trim select) = .ok s.selection ∧ s.Follows source cuts := by
  unfold Statement.read at h
  obtain ⟨outline, houtline, h⟩ := Success.of_bind h
  obtain ⟨select, source, cuts, hcuts, -, -, rfl⟩ := cuts_of_ofQuery houtline
  obtain ⟨selection, hselection, h⟩ := Success.of_bind h
  obtain ⟨filter, hfilter, h⟩ := Success.of_bind h
  obtain ⟨group, hgroup, h⟩ := Success.of_bind h
  obtain ⟨order, horder, h⟩ := Success.of_bind h
  obtain ⟨limit, hlimit, h⟩ := Success.of_bind h
  cases Except.ok.inj h
  rw [String.toList_ofList] at hselection
  exact ⟨select, source, cuts, hcuts, hselection, rfl, hfilter, hgroup, horder, hlimit⟩

def selecting (item rest : List Char) : List Char :=
  "SELECT".toList ++ ' ' :: (item ++ ' ' :: ("FROM".toList ++ ' ' :: rest))

theorem body_selecting (item rest : List Char) : body (String.ofList (selecting item rest)) =
    "SELECT".toList ++ ' ' :: (item ++ ' ' :: ("FROM".toList ++ ending (' ' :: rest))) := by
  have hsplit (tail : List Char) :
      "SELECT".toList ++ ' ' :: (item ++ ' ' :: ("FROM".toList ++ tail)) =
      ("SELECT".toList ++ (' ' :: (item ++ ' ' :: "FROM".toList))) ++ tail := by simp
  have hlast : ∀ c ∈ (' ' :: (item ++ ' ' :: "FROM".toList)).getLast?, c = 'M' := by
    intro c hc
    have hend : ' ' :: (item ++ ' ' :: "FROM".toList) =
        (' ' :: item ++ " ".toList) ++ "FROM".toList := by simp
    rw [hend, getLast?_of_append (by decide)] at hc
    exact (Option.some.inj hc).symm
  have htrimmed : IsTrimmed ("SELECT".toList ++ (' ' :: (item ++ ' ' :: "FROM".toList))) := by
    refine IsTrimmed.append (by decide) (by decide) (by simp) fun c hc => ?_
    rw [hlast c hc]
    decide
  unfold selecting
  rw [hsplit, hsplit, body_append htrimmed (by simp)]
  rw [getLast?_of_append (by simp)]
  intro hsemicolon
  exact absurd (hlast ';' hsemicolon) (by decide)

theorem read_path_alias {path name rest : List Char} (hp : isFieldPath path = true)
    (hn : isName name = true) {s t : Statement}
    (hs : Statement.read (String.ofList (selecting path rest)) = .ok s)
    (ht : Statement.read (String.ofList (selecting (path ++ " AS".toList ++ ' ' :: name) rest)) =
      .ok t) :
    s.selection = .one (String.ofList path) [] ∧
      t = { s with
        selection := .one (String.ofList name) [(String.ofList name, String.ofList path)] } := by
  obtain ⟨select, source, cuts, hcuts, hselection, hfollows⟩ := cuts_of_read hs
  obtain ⟨select', source', cuts', hcuts', hselection', hfollows'⟩ := cuts_of_read ht
  have hblank := isBlank_of_isFieldPath hp
  have hordinary := (Selection.isPlain_of_isFieldPath hp).isOrdinary
  have hne := ne_nil_of_isFieldPath hp
  have hend := wordEnds_ending rest
  rw [body_selecting] at hcuts hcuts'
  generalize ending (' ' :: rest) = tail at hend hcuts hcuts'
  have hnothing : Passes findKeyword [.select] [.select]
      (path ++ ' ' :: ("FROM".toList ++ tail)) true [] := rfl
  rcases select_of_cutWords hnothing rfl hblank hordinary hne hend hcuts with
    rfl | ⟨hkeyword, rfl, hsource⟩
  · cases hselection
  have hselect : trim (' ' :: ([] ++ (path ++ [' ']))) = path :=
    (isTrimmed_of_isFieldPath hp).trim_spaced
  rw [hselect] at hselection
  obtain ⟨hdistinct, hcolumn⟩ := Selection.read_path hp hselection
  refine ⟨hcolumn, ?_⟩
  have hbefore : Passes findKeyword [.select] [.select]
      (name ++ ' ' :: ("FROM".toList ++ tail)) true (path ++ " AS ".toList) := by
    have hstart := startBehind_of_last hne (isTrimmed_of_isFieldPath hp).2 true
    refine Passes.append (passes_word hblank hordinary hne rfl rfl hkeyword) ?_
    rw [hstart]
    exact passes_as _
  have hstart : startBehind true (path ++ " AS ".toList) = true := by
    rw [startBehind_append]
    rfl
  have hsplit : path ++ " AS".toList ++ ' ' :: name ++ ' ' :: ("FROM".toList ++ tail) =
      path ++ " AS ".toList ++ (name ++ ' ' :: ("FROM".toList ++ tail)) := by simp
  rw [hsplit] at hcuts'
  have hname := isFieldPath_of_isName hn
  rcases select_of_cutWords hbefore hstart (isBlank_of_isFieldPath hname)
    (Selection.isPlain_of_isFieldPath hname).isOrdinary (ne_nil_of_isFieldPath hname) hend
    hcuts' with rfl | ⟨-, rfl, hsource'⟩
  · have hselect' : trim (' ' :: (path ++ " AS ".toList)) = path ++ " AS".toList := by
      simpa using (Selection.isTrimmed_dangling hp).trim_spaced
    rw [hselect'] at hselection'
    exact absurd hselection' (Selection.read_dangling hp hdistinct)
  · have hselect' : trim (' ' :: (path ++ " AS ".toList ++ (name ++ [' ']))) =
        path ++ " AS".toList ++ ' ' :: name := by
      simpa using (Selection.isTrimmed_alias hp hn).trim_spaced
    rw [hselect', Selection.read_alias hp hn hdistinct] at hselection'
    obtain ⟨rfl, rfl⟩ := Prod.mk.inj (hsource.symm.trans hsource')
    rw [hfollows.unique hfollows', ← Except.ok.inj hselection']

end Statement
end TableQuery
