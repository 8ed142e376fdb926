import TableQuery.Proofs.Query.SelectList

/-! # Select lists as they are written

A written select list is a star or a list of items between commas and blanks, perhaps behind
the word DISTINCT. Where no two items have one name, it is read back to its columns, calls and
aliases, each in the order of the items. The words AS and DISTINCT and the names of functions
may all be paths and aliases; only a path in front is not spelled DISTINCT, unless that word
stands in front of it.
-/
namespace TableQuery
open Text Nesting

namespace WrittenItem
variable {α : Type} {f : WrittenItem → Option α} {items : List WrittenItem} {i : WrittenItem}

/-- What some items have, under the names of these items. -/
def entries (f : WrittenItem → Option α) (items : List WrittenItem) : List (String × α) :=
  items.filterMap fun i => (f i).map (i.column, ·)

theorem mem_columns_of_entries {key : String} (h : key ∈ (entries f items).map (·.1)) :
    key ∈ items.map column := by
  obtain ⟨entry, hentry, rfl⟩ := List.mem_map.mp h
  obtain ⟨i, hi, hfound⟩ := List.mem_filterMap.mp hentry
  obtain ⟨a, -, rfl⟩ := Option.map_eq_some_iff.mp hfound
  exact List.mem_map_of_mem hi

theorem enter_entries (h : i.column ∉ items.map column) :
    Entries.enter (entries f items) i.column (f i) = entries f (items ++ [i]) := by
  have hnew : i.column ∉ (entries f items).map (·.1) := fun hmem => h (mem_columns_of_entries hmem)
  have happend : entries f (items ++ [i]) = entries f items ++ entries f [i] :=
    List.filterMap_append
  rw [happend]
  cases hf : f i with
  | none => simp [Entries.enter, entries, hf]
  | some a =>
    rw [Entries.enter, Entries.set_of_notMem hnew]
    simp [entries, hf]

def selection (distinct : Bool) (items : List WrittenItem) : Selection where
  columns := items.map column
  distinct := distinct
  calls := entries (·.source.call?) items
  aliases := entries standsFor? items

variable {distinct : Bool}

theorem add_selection (h : i.column ∉ items.map column) :
    i.add (selection distinct items) = selection distinct (items ++ [i]) := by
  unfold add selection
  rw [enter_entries h, enter_entries h, List.map_append]
  rfl

theorem foldlM_chars (done : List WrittenItem) (h : ((done ++ items).map column).Nodup) :
    (items.map chars).foldlM Selection.addItem (selection distinct done) =
      .ok (selection distinct (done ++ items)) := by
  -- the items that are done grow by the first of the others, whose name is new among them
  induction items generalizing done with
  | nil =>
    rw [List.append_nil]
    rfl
  | cons i items ih =>
    have hnew : i.column ∉ done.map column := by
      rw [List.map_append] at h
      exact fun hmem => (List.nodup_append.mp h).2.2 _ hmem _ List.mem_cons_self rfl
    have hsplit : done ++ i :: items = (done ++ [i]) ++ items := by simp
    rw [hsplit] at h ⊢
    rw [List.map_cons, List.foldlM_cons, i.addItem_chars, add_selection hnew]
    exact ih _ h

end WrittenItem

/-- The star, or items between commas. -/
inductive WrittenList where
  | star
  | items (first : WrittenItem) (rest : List (Separator × WrittenItem))

namespace WrittenList
open Selection

def chars : WrittenList → List Char
  | star => ['*']
  | items first rest => separated first.chars (rest.map (Prod.map id WrittenItem.chars))

def selection (distinct : Bool) : WrittenList → Selection
  | star => ⟨["*"], distinct, [], []⟩
  | items first rest => WrittenItem.selection distinct (first :: rest.map (·.2))

def front : WrittenList → List Char
  | star => ['*']
  | items first _ => first.source.front

theorem chars_ne_nil (l : WrittenList) : l.chars ≠ [] := by
  cases l with
  | star => exact List.cons_ne_nil _ _
  | items first rest => simp [chars, separated, first.chars_ne_nil]

theorem isTrimmed_chars (l : WrittenList) : IsTrimmed l.chars := by
  cases l with
  | star => decide
  | items first rest =>
    exact isTrimmed_separated_map WrittenItem.isItem_chars first rest WrittenItem.chars_ne_nil

theorem isBlank_front (l : WrittenList) : ∀ c ∈ l.front, isBlank c = false := by
  cases l with
  | star => decide
  | items first _ => exact first.source.isBlank_front

theorem exists_front (l : WrittenList) : ∃ rest, l.chars = l.front ++ rest ∧ NameEnds rest := by
  cases l with
  | star => exact ⟨[], rfl, nameEnds_nil⟩
  | items first rest =>
    obtain ⟨tail, hchars, htail⟩ := first.exists_front
    have hmore := nameEnds_behind (rest.map (Prod.map id WrittenItem.chars))
    refine ⟨_, ?_, htail.append hmore⟩
    rw [chars, separated, hchars, List.append_assoc]
    rfl

theorem readItems_star (distinct : Bool) :
    readItems distinct ['*'] = .ok ⟨["*"], distinct, [], []⟩ := by
  cases distinct <;> rfl

theorem readItems_chars {distinct : Bool} (l : WrittenList)
    (h : (l.selection distinct).columns.Nodup) :
    readItems distinct l.chars = .ok (l.selection distinct) := by
  cases l with
  | star => exact readItems_star distinct
  | items first rest =>
    have hsplit := splitCommas_separated_map WrittenItem.isItem_chars first rest .select
    have hfold : ((first :: rest.map (·.2)).map WrittenItem.chars).foldlM addItem
        (empty distinct) = .ok (WrittenItem.selection distinct (first :: rest.map (·.2))) :=
      WrittenItem.foldlM_chars [] h
    refine readItems_eq_ok_iff.mpr ⟨(items first rest).chars_ne_nil, _, hsplit, hfold, ?_⟩
    intro hstar
    obtain ⟨i, -, hi⟩ := List.mem_map.mp (List.contains_iff_mem.mp hstar)
    exact absurd hi i.column_ne_star

theorem read_chars (l : WrittenList) (hnames : (l.selection false).columns.Nodup)
    (hfront : l.front.map Char.toUpper ≠ "DISTINCT".toList) :
    Selection.read l.chars = .ok (l.selection false) := by
  obtain ⟨rest, hchars, hrest⟩ := l.exists_front
  have hafter := afterDistinct?_eq_none l.isBlank_front hrest hfront
  rw [← hchars] at hafter
  have htrim := l.isTrimmed_chars.trim_eq
  rw [read_eq (by rw [htrim]; exact l.chars_ne_nil), htrim, hafter]
  exact l.readItems_chars hnames

theorem read_item (i : WrittenItem)
    (hfront : i.source.front.map Char.toUpper ≠ "DISTINCT".toList) :
    Selection.read i.chars = .ok (WrittenItem.selection false [i]) := by
  have hchars : (items i []).chars = i.chars := separated_nil i.chars
  have hread := (items i []).read_chars (List.pairwise_singleton _ i.column) hfront
  rwa [hchars] at hread

theorem isTrimmed_distinct (l : WrittenList) (word : Spelling "DISTINCT") (blanks : Blanks) :
    IsTrimmed (word.1 ++ (blanks.1 ++ l.chars)) := by
  refine (isTrimmed_of_forall (word.isBlank (by decide))).append (word.ne_nil (by decide))
    (by simp [l.chars_ne_nil]) ?_
  rw [getLast?_of_append l.chars_ne_nil]
  exact l.isTrimmed_chars.2

theorem read_distinct (l : WrittenList) (hnames : (l.selection true).columns.Nodup)
    (word : Spelling "DISTINCT") (blanks : Blanks) :
    Selection.read (word.1 ++ (blanks.1 ++ l.chars)) = .ok (l.selection true) := by
  have hend := wordEnds_gap_append blanks.2.2 blanks.2.1 l.chars
  have hlist : trim (blanks.1 ++ l.chars) = l.chars := by
    have hbetween := trim_between blanks.2.2 l.isTrimmed_chars isGap_nil
    rwa [List.append_nil] at hbetween
  have htrim := (l.isTrimmed_distinct word blanks).trim_eq
  rw [read_eq (by simp [htrim, l.chars_ne_nil]), htrim, afterDistinct?_append word.2 hend, hlist]
  exact l.readItems_chars hnames

end WrittenList

/-- A list of items with gaps at its ends, perhaps behind the word DISTINCT. -/
structure WrittenSelection where
  before : Gap
  lead? : Option (Spelling "DISTINCT" × Blanks)
  list : WrittenList
  after : Gap

namespace WrittenSelection

def body (w : WrittenSelection) : List Char :=
  match w.lead? with
  | some (word, blanks) => word.1 ++ (blanks.1 ++ w.list.chars)
  | none => w.list.chars

def chars (w : WrittenSelection) : List Char := w.before.1 ++ w.body ++ w.after.1

def selection (w : WrittenSelection) : Selection := w.list.selection w.lead?.isSome

theorem isTrimmed_body (w : WrittenSelection) : IsTrimmed w.body := by
  unfold body
  split
  · exact w.list.isTrimmed_distinct _ _
  · exact w.list.isTrimmed_chars

/-- A written select list is read back to what it selects. -/
theorem read_selection (w : WrittenSelection) (hnames : w.selection.columns.Nodup)
    (hfront : w.lead? = none → w.list.front.map Char.toUpper ≠ "DISTINCT".toList) :
    Selection.read w.chars = .ok w.selection := by
  have htrim : trim w.chars = w.body := trim_between w.before.2 w.isTrimmed_body w.after.2
  rw [← Selection.read_trim, htrim]
  unfold selection at hnames ⊢
  unfold body
  cases hlead : w.lead? with
  | none =>
    rw [hlead] at hnames
    exact w.list.read_chars hnames (hfront hlead)
  | some lead =>
    rw [hlead] at hnames
    exact w.list.read_distinct hnames lead.1 lead.2

/-- The words of the language are read as names where names are written. -/
theorem read_lookalikes :
    let no : Gap := ⟨[], isGap_nil⟩
    let one : Gap := ⟨[' '], isGap_space⟩
    let blank : Blanks := ⟨[' '], by decide⟩
    let named (name : List Char) (h : isName name = true) : WrittenAlias :=
      ⟨blank, ⟨"aS".toList, by decide⟩, blank, ⟨name, h⟩⟩
    let count : WrittenCall :=
      ⟨.count, ⟨"Count".toList, by decide⟩, no, one, ['*'], one, Or.inr ⟨rfl, rfl⟩⟩
    let sum : WrittenCall :=
      ⟨.sum, ⟨"sum".toList, by decide⟩, no, no, "distinct.as".toList, no, Or.inl (by decide)⟩
    let w : WrittenSelection := {
      before := one
      lead? := none
      list := .items ⟨.path ⟨"AS".toList, by decide⟩, some (named "AS".toList (by decide))⟩
        [(⟨no, one⟩, ⟨.call count, some (named "distinct".toList (by decide))⟩),
          (⟨one, no⟩, ⟨.call sum, none⟩), (⟨no, no⟩, ⟨.path ⟨"sum".toList, by decide⟩, none⟩)]
      after := no }
    w.selection.columns.Nodup ∧
      (w.lead? = none → w.list.front.map Char.toUpper ≠ "DISTINCT".toList) ∧
      Selection.read " AS aS AS, Count( * ) aS distinct ,sum(distinct.as),sum".toList = .ok {
        columns := ["AS", "distinct", "SUM(distinct.as)", "sum"]
        distinct := false
        calls := [("distinct", ⟨.count, "*"⟩), ("SUM(distinct.as)", ⟨.sum, "distinct.as"⟩)]
        aliases := [("AS", "AS"), ("distinct", "COUNT(*)")] } := by
  intro no one blank named count sum w
  have hnames : w.selection.columns.Nodup := by decide
  have hfront : w.lead? = none → w.list.front.map Char.toUpper ≠ "DISTINCT".toList := by decide
  exact ⟨hnames, hfront, read_selection w hnames hfront⟩

example : Selection.read "Distinct\tdistinct , b".toList =
    .ok ⟨["distinct", "b"], true, [], []⟩ := by rfl

end WrittenSelection
end TableQuery
