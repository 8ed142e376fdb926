import TableQuery.Proofs.Query.SelectList
import TableQuery.Query.Ordering

/-! # Order lists as they are written

A written order list holds paths and calls between commas and blanks, each perhaps with the word
ASC or DESC behind it. It is read back to the columns and directions of its keys, in order. Only
a word behind blanks is a direction, so a path may be spelled like one, or like a function.
-/
namespace TableQuery
open Text Nesting

namespace Text

theorem isNameChar_of_isAlpha {c : Char} (h : c.isAlpha = true) : isNameChar c = true := by
  apply isNameChar_of_isNameStart
  simp [isNameStart, h]

theorem isAlpha_of_toUpper {c : Char} (h : c.toUpper.isUpper = true) : c.isAlpha = true := by
  have hstart := isNameStart_of_toUpper h
  rw [isNameStart, Bool.or_eq_true, beq_iff_eq] at hstart
  rcases hstart with halpha | rfl
  · exact halpha
  · exact absurd h (by decide)

end Text

namespace Direction

theorem isCapital_name (direction : Direction) : IsCapital direction.name.toList := by
  cases direction <;> decide

theorem name_ne_nil (direction : Direction) : direction.name.toList ≠ [] := by
  cases direction <;> decide

theorem ofWord?_spelling {direction : Direction} (s : Spelling direction.name) :
    ofWord? s.1 = some direction := by
  unfold ofWord?
  dsimp only
  rw [s.2]
  cases direction <;> decide

end Direction

namespace SortKey
variable {cs g word : List Char}

theorem lastWord?_of_last (h : ∀ c ∈ cs.getLast?, c.isAlpha = false) : lastWord? cs = none := by
  have hword : cs.reverse.takeWhile Char.isAlpha = [] := by
    cases hback : cs.reverse with
    | nil => rfl
    | cons c back =>
      have hlast : c ∈ cs.getLast? := by
        rw [← List.head?_reverse, hback]
        rfl
      exact List.takeWhile_cons_of_neg (by simp [h c hlast])
  unfold lastWord?
  simp only [hword]
  split <;> rfl

theorem lastWord?_of_noBlank (h : ∀ c ∈ cs, isBlank c = false) : lastWord? cs = none := by
  have hblanks : blanks? (cs.reverse.dropWhile Char.isAlpha) = none := by
    cases hrest : cs.reverse.dropWhile Char.isAlpha with
    | nil => rfl
    | cons c rest =>
      have hmem : c ∈ cs.reverse.dropWhile Char.isAlpha := by
        rw [hrest]
        exact List.mem_cons_self
      have hc := h c (List.mem_reverse.mp (List.dropWhile_subset _ hmem))
      simp [blanks?, hc]
  unfold lastWord?
  simp only [hblanks]

theorem lastWord?_append (hn : cs ≠ []) (ht : IsTrimmed cs) (hg : IsGap g) (hgn : g ≠ [])
    (hw : ∀ c ∈ word, c.isAlpha = true) (hwn : word ≠ []) :
    lastWord? (cs ++ (g ++ word)) = some (cs, word) := by
  have hback : (cs ++ (g ++ word)).reverse = word.reverse ++ (g.reverse ++ cs.reverse) := by simp
  have hgr : g.reverse ≠ [] := by simpa using hgn
  have hletters : ∀ c ∈ word.reverse, c.isAlpha = true := fun c hc => hw c (List.mem_reverse.mp hc)
  have hstop : ∀ c ∈ (g.reverse ++ cs.reverse).head?, c.isAlpha = false := by
    intro c hc
    have hends := wordEnds_gap_append (isGap_reverse.mpr hg) hgr cs.reverse
    have hname := nameEnds_of_wordEnds hends c hc
    rw [← Bool.not_eq_true] at hname ⊢
    exact fun halpha => hname (isNameChar_of_isAlpha halpha)
  obtain ⟨htake, hdrop⟩ := span_append hletters hstop
  have hblanks : blanks? (g.reverse ++ cs.reverse) = some cs.reverse := by
    rw [blanks?_gap_append (isGap_reverse.mpr hg) hgr,
      trimStart_of_head (isTrimmed_reverse.mpr ht).1]
  obtain ⟨c, rest, hrev⟩ := List.exists_cons_of_ne_nil (fun h => hn (List.reverse_eq_nil_iff.mp h))
  have hcs : (c :: rest).reverse = cs := by rw [← hrev, List.reverse_reverse]
  unfold lastWord?
  simp only [hback, htake, hdrop, hblanks, List.reverse_reverse]
  rw [hrev]
  dsimp only
  rw [hcs, if_neg (by simpa using hwn)]

end SortKey

/-- A direction as it is written, with the blanks in front of it. -/
structure WrittenDirection where
  before : Blanks
  direction : Direction
  word : Spelling direction.name

namespace WrittenDirection
variable (d : WrittenDirection)

def chars : List Char := d.before.1 ++ d.word.1

theorem word_ne_nil : d.word.1 ≠ [] := d.word.ne_nil d.direction.name_ne_nil

theorem isAlpha_word : ∀ c ∈ d.word.1, c.isAlpha = true := by
  intro c hc
  apply isAlpha_of_toUpper
  apply d.direction.isCapital_name
  rw [← d.word.2]
  exact List.mem_map_of_mem hc

theorem isPlain_chars : Selection.IsPlain d.chars := by
  have hword : Selection.IsPlain d.word.1 :=
    fun c hc => Or.inl (d.word.isPathChar d.direction.isCapital_name hc)
  exact Selection.isPlain_append.mpr ⟨Selection.isPlain_gap d.before.2.2, hword⟩

theorem isBlank_last : ∀ c ∈ d.chars.getLast?, isBlank c = false := by
  intro c hc
  rw [chars, getLast?_of_append d.word_ne_nil] at hc
  exact d.word.isBlank d.direction.isCapital_name c (List.mem_of_getLast? hc)

end WrittenDirection

/-- A path or a call with or without a direction. -/
structure WrittenKey where
  source : WrittenSource
  direction? : Option WrittenDirection

namespace WrittenKey
open SortKey
variable (k : WrittenKey)

def chars : List Char := k.source.chars ++ k.direction?.elim [] WrittenDirection.chars

/-- The column and the direction of a key; without a word it is ascending. -/
def key : SortKey := ⟨k.source.label, k.direction?.elim .ascending WrittenDirection.direction⟩

theorem chars_ne_nil : k.chars ≠ [] := by simp [chars, k.source.chars_ne_nil]

theorem isItem_chars : IsItem k.chars := by
  obtain ⟨source, _ | d⟩ := k
  · exact Selection.isItem_append source nofun nofun
  · exact Selection.isItem_append source d.isPlain_chars d.isBlank_last

theorem lastWord?_chars :
    lastWord? k.chars = k.direction?.map fun d => (k.source.chars, d.word.1) := by
  obtain ⟨source, _ | d⟩ := k
  · change lastWord? (source.chars ++ []) = none
    rw [List.append_nil]
    cases source with
    | path p => exact lastWord?_of_noBlank (isBlank_of_isFieldPath p.2)
    | call c =>
      apply lastWord?_of_last
      intro d hd
      cases c.getLast?_chars.symm.trans hd
      decide
  · exact lastWord?_append source.chars_ne_nil source.isTrimmed_chars d.before.2.2 d.before.2.1
      d.isAlpha_word d.word_ne_nil

theorem column_chars (source : WrittenSource) (direction : Direction) : (do
    match ← Call.read? .order source.chars with
    | some call => pure ⟨call.label, direction⟩
    | none =>
      if isFieldPath source.chars then pure ⟨String.ofList source.chars, direction⟩
      else throw (.badOrderField (String.ofList source.chars)) : Except Fault SortKey) =
    .ok ⟨source.label, direction⟩ := by
  rw [source.read?_chars]
  cases source with
  | path p => exact if_pos p.2
  | call c => rfl

theorem readItem_chars : readItem k.chars = .ok k.key := by
  have hempty : k.chars.isEmpty = false := by simpa using k.chars_ne_nil
  have hlast := k.lastWord?_chars
  unfold readItem
  rw [hlast, hempty, if_neg Bool.false_ne_true]
  obtain ⟨source, _ | d⟩ := k
  · have hchars : (WrittenKey.mk source none).chars = source.chars := List.append_nil _
    rw [hchars]
    exact column_chars source .ascending
  · have hdirection := Direction.ofWord?_spelling d.word
    have htrim := source.isTrimmed_chars.trim_eq
    dsimp only [Option.map_some]
    rw [hdirection, htrim]
    exact column_chars source d.direction

end WrittenKey

/-- Keys between commas, with gaps at both ends of the list. -/
structure WrittenOrder where
  before : Gap
  first : WrittenKey
  rest : List (Separator × WrittenKey)
  after : Gap

namespace WrittenOrder
variable (w : WrittenOrder)

def body : List Char := separated w.first.chars (w.rest.map (Prod.map id WrittenKey.chars))

def chars : List Char := w.before.1 ++ w.body ++ w.after.1

def keys : List SortKey := (w.first :: w.rest.map (·.2)).map WrittenKey.key

theorem body_ne_nil : w.body ≠ [] := by simp [body, separated, w.first.chars_ne_nil]

theorem isTrimmed_body : IsTrimmed w.body :=
  isTrimmed_separated_map WrittenKey.isItem_chars w.first w.rest WrittenKey.chars_ne_nil

theorem splitCommas_body : splitCommas .order w.body =
    .ok ((w.first :: w.rest.map (·.2)).map WrittenKey.chars) :=
  splitCommas_separated_map WrittenKey.isItem_chars w.first w.rest .order

/-- A written order list is read back to its keys. -/
theorem read_order : SortKey.readList w.chars = .ok w.keys := by
  have htrim : trim w.chars = w.body := trim_between w.before.2 w.isTrimmed_body w.after.2
  have hempty : w.body.isEmpty = false := by simpa using w.body_ne_nil
  have hitems : ((w.first :: w.rest.map (·.2)).map WrittenKey.chars).mapM SortKey.readItem =
      .ok w.keys := by
    rw [List.mapM_map]
    exact Success.mapM_eq_ok fun k _ => k.readItem_chars
  unfold SortKey.readList
  simp only [htrim, hempty, splitCommas_body, bind, Except.bind, hitems]
  rfl

example : SortKey.readList " asc, Count ( * )\tdesc ,sum, desc DeSc,max(min) ".toList =
    .ok [⟨"asc", .ascending⟩, ⟨"COUNT(*)", .descending⟩, ⟨"sum", .ascending⟩,
      ⟨"desc", .descending⟩, ⟨"MAX(min)", .ascending⟩] := by rfl

end WrittenOrder
end TableQuery
