import TableQuery.Proofs.Query.Commas
import TableQuery.Query.Call

/-! # Paths and calls as they are written

A column is taken from a field path or from a call of a function, whose name may be written
in letters of either case and which may have gaps around its argument. Either is read back to
the path or the call, and is one item between commas.
-/
namespace TableQuery
open Text Nesting

namespace Text

abbrev Spelling (word : String) : Type := {cs : List Char // cs.map Char.toUpper = word.toList}

abbrev FieldPath : Type := {cs : List Char // isFieldPath cs = true}

theorem ofList_ne_star {path : List Char} (h : isFieldPath path = true) :
    String.ofList path ≠ "*" := by
  intro hstar
  rw [← String.toList_inj, String.toList_ofList] at hstar
  rw [hstar] at h
  exact absurd h (by decide)

variable {word : String}

theorem Spelling.isNameStart (s : Spelling word) (hw : IsCapital word.toList) {c : Char}
    (hc : c ∈ s.1) : isNameStart c = true := by
  refine isNameStart_of_toUpper (hw c.toUpper ?_)
  rw [← s.2]
  exact List.mem_map_of_mem hc

theorem Spelling.isPathChar (s : Spelling word) (hw : IsCapital word.toList) {c : Char}
    (hc : c ∈ s.1) : isPathChar c = true := by
  rw [Text.isPathChar, isNameChar_of_isNameStart (s.isNameStart hw hc), Bool.true_or]

theorem Spelling.isBlank (s : Spelling word) (hw : IsCapital word.toList) :
    ∀ c ∈ s.1, isBlank c = false := fun _ hc => isBlank_of_isPathChar (s.isPathChar hw hc)

theorem Spelling.ne_nil (s : Spelling word) (hn : word.toList ≠ []) : s.1 ≠ [] := by
  intro h
  have hs := s.2
  rw [h] at hs
  exact hn hs.symm

end Text

namespace Aggregate

theorem isCapital_name (function : Aggregate) : IsCapital function.name.toList := by
  cases function <;> decide

theorem name_ne_nil (function : Aggregate) : function.name.toList ≠ [] := by
  cases function <;> decide

theorem ofName?_spelling {function : Aggregate} (s : Spelling function.name) :
    ofName? s.1 = some function := by
  have hname : String.ofList (upper s.1) = function.name := by
    rw [upper_of_map_toUpper function.isCapital_name s.2, String.ofList_toList]
  unfold ofName?
  dsimp only
  rw [hname]
  cases function <;> decide

end Aggregate

theorem Call.label_ne_star (call : Call) : call.label ≠ "*" := by
  have hlast : call.label.toList.getLast? = some ')' := by
    rw [label, String.toList_append, getLast?_of_append (by decide)]
    rfl
  intro h
  rw [h] at hlast
  exact absurd hlast (by decide)

theorem Call.read?_of_notMem {cs : List Char} (h : '(' ∉ cs) (clause : Clause) :
    Call.read? clause cs = .ok none := by
  have hopen : '(' ∉ trim cs := by
    obtain ⟨g, g', -, -, -, hcs⟩ := exists_trim cs
    exact fun hmem => h (hcs ▸ List.mem_append_left g' (List.mem_append_right g hmem))
  have hparts : Call.parts? (trim cs) = none := by
    unfold Call.parts?
    dsimp only
    split
    · next rest hrest =>
      refine absurd ?_ hopen
      have hmem : '(' ∈ trimStart ((trim cs).dropWhile fun c => c.isAlpha || c == '_') := by
        rw [hrest]
        exact List.mem_cons_self
      exact List.dropWhile_subset _ (List.dropWhile_subset _ hmem)
    · rfl
  rw [Call.read?, hparts]
  rfl

/-- A call as it is written, with the gaps in front of its parenthesis and around its argument. -/
structure WrittenCall where
  function : Aggregate
  word : Spelling function.name
  behind : Gap
  before : Gap
  argument : List Char
  after : Gap
  takes : isFieldPath argument = true ∨ function = .count ∧ argument = ['*']

namespace WrittenCall

def inner (c : WrittenCall) : List Char := c.before.1 ++ c.argument ++ c.after.1

def chars (c : WrittenCall) : List Char := c.word.1 ++ (c.behind.1 ++ '(' :: (c.inner ++ [')']))

def call (c : WrittenCall) : Call := ⟨c.function, String.ofList c.argument⟩

variable (c : WrittenCall)

theorem isTrimmed_argument : IsTrimmed c.argument := by
  rcases c.takes with hpath | ⟨-, hstar⟩
  · exact isTrimmed_of_isFieldPath hpath
  · rw [hstar]
    decide

theorem getLast?_chars : c.chars.getLast? = some ')' := by
  rw [chars, getLast?_of_append (by simp), getLast?_of_append (by simp), ← List.cons_append,
    getLast?_of_append (by simp)]
  rfl

theorem chars_ne_nil : c.chars ≠ [] := by simp [chars]

theorem isBlank_word : ∀ d ∈ c.word.1, isBlank d = false :=
  c.word.isBlank c.function.isCapital_name

theorem nameEnds_behind : NameEnds (c.behind.1 ++ '(' :: (c.inner ++ [')'])) :=
  (nameEnds_gap c.behind.2).append (nameEnds_cons (by decide) _)

theorem isTrimmed_chars : IsTrimmed c.chars := by
  have hword : IsTrimmed c.word.1 := isTrimmed_of_forall c.isBlank_word
  refine hword.append (c.word.ne_nil c.function.name_ne_nil) (by simp) ?_
  intro d hd
  have hlast := c.getLast?_chars
  rw [chars, getLast?_of_append (by simp)] at hlast
  rw [hlast] at hd
  cases Option.some.inj hd
  decide

/-- Characters of paths, blanks and the star are all that stands between the parentheses. -/
theorem mem_inner {d : Char} (hd : d ∈ c.inner) :
    isPathChar d = true ∨ isBlank d = true ∨ d = '*' := by
  rcases List.mem_append.mp hd with hd | hd
  · rcases List.mem_append.mp hd with hd | hd
    · exact Or.inr (Or.inl (c.before.2 d hd))
    · rcases c.takes with hpath | ⟨-, hstar⟩
      · exact Or.inl (isPathChar_of_isFieldPath hpath hd)
      · rw [hstar] at hd
        exact Or.inr (Or.inr (List.mem_singleton.mp hd))
  · exact Or.inr (Or.inl (c.after.2 d hd))

theorem balanced_chars : Balanced c.chars := by
  have hword : Balanced c.word.1 := balanced_of_ordinary fun d hd =>
    isOrdinary_of_isPathChar (c.word.isPathChar c.function.isCapital_name hd)
  have hinner : Balanced c.inner := balanced_of_ordinary fun d hd => by
    rcases c.mem_inner hd with hd | hd | rfl
    · exact isOrdinary_of_isPathChar hd
    · exact isOrdinary_of_isBlank hd
    · decide
  exact hword.append ((balanced_gap c.behind.2).append (balanced_parentheses hinner))

theorem comma_notMem : ',' ∉ c.chars := by
  intro h
  rcases List.mem_append.mp h with h | h
  · exact absurd (c.word.isPathChar c.function.isCapital_name h) (by decide)
  rcases List.mem_append.mp h with h | h
  · exact absurd (c.behind.2 ',' h) (by decide)
  rcases List.mem_cons.mp h with h | h
  · cases h
  rcases List.mem_append.mp h with h | h
  · rcases c.mem_inner h with h | h | h
    · exact absurd h (by decide)
    · exact absurd h (by decide)
    · cases h
  · cases List.mem_singleton.mp h

theorem trim_inner : trim c.inner = c.argument :=
  trim_between c.before.2 c.isTrimmed_argument c.after.2

theorem parts?_chars : Call.parts? c.chars = some (c.word.1, c.argument) := by
  have hall : ∀ d ∈ c.word.1, isNameStart d = true := fun d hd =>
    c.word.isNameStart c.function.isCapital_name hd
  have hstop : ∀ d ∈ (c.behind.1 ++ '(' :: (c.inner ++ [')'])).head?, isNameStart d = false := by
    intro d hd
    rw [← Bool.not_eq_true]
    intro hstart
    have hend := c.nameEnds_behind d hd
    rw [isNameChar_of_isNameStart hstart] at hend
    cases hend
  have hwhile : (fun d : Char => d.isAlpha || d == '_') = isNameStart := rfl
  obtain ⟨htake, hdrop⟩ := span_append hall hstop
  have hparenthesis : ∀ d ∈ ('(' :: (c.inner ++ [')'])).head?, isBlank d = false := by
    intro d hd
    cases hd
    decide
  have hopen : trimStart (c.behind.1 ++ '(' :: (c.inner ++ [')'])) = '(' :: (c.inner ++ [')']) :=
    (trimStart_gap_append c.behind.2 _).trans (trimStart_of_head hparenthesis)
  have hempty : c.word.1.isEmpty = false := by simpa using c.word.ne_nil c.function.name_ne_nil
  unfold Call.parts?
  dsimp only
  rw [hwhile, chars, htake, hdrop, hopen]
  simp [hempty, trim_inner]

theorem read?_chars (clause : Clause) : Call.read? clause c.chars = .ok (some c.call) := by
  rw [Call.read?, c.isTrimmed_chars.trim_eq, c.parts?_chars]
  dsimp only
  rw [Aggregate.ofName?_spelling c.word]
  dsimp only
  rcases c.takes with hpath | ⟨hcount, hstar⟩
  · have hne : c.argument ≠ ['*'] := by
      intro h
      rw [h] at hpath
      cases hpath
    rw [if_neg hne, if_pos hpath]
    rfl
  · rw [if_pos hstar, if_pos hcount]
    rfl

end WrittenCall

/-- What a column is taken from. -/
inductive WrittenSource where
  | path (p : FieldPath)
  | call (c : WrittenCall)

namespace WrittenSource

def chars : WrittenSource → List Char
  | path p => p.1
  | call c => c.chars

def call? : WrittenSource → Option Call
  | path _ => none
  | call c => some c.call

def label : WrittenSource → String
  | path p => String.ofList p.1
  | call c => c.call.label

def front : WrittenSource → List Char
  | path p => p.1
  | call c => c.word.1

theorem chars_ne_nil (source : WrittenSource) : source.chars ≠ [] := by
  cases source with
  | path p => exact ne_nil_of_isFieldPath p.2
  | call c => exact c.chars_ne_nil

theorem isTrimmed_chars (source : WrittenSource) : IsTrimmed source.chars := by
  cases source with
  | path p => exact isTrimmed_of_isFieldPath p.2
  | call c => exact c.isTrimmed_chars

theorem balanced_chars (source : WrittenSource) : Balanced source.chars := by
  cases source with
  | path p => exact balanced_of_isFieldPath p.2
  | call c => exact c.balanced_chars

theorem comma_notMem (source : WrittenSource) : ',' ∉ source.chars := by
  cases source with
  | path p => exact fun h => absurd (isPathChar_of_isFieldPath p.2 h) (by decide)
  | call c => exact c.comma_notMem

theorem read?_chars (source : WrittenSource) (clause : Clause) :
    Call.read? clause source.chars = .ok source.call? := by
  cases source with
  | path p =>
    have hopen : '(' ∉ p.1 := fun h => absurd (isPathChar_of_isFieldPath p.2 h) (by decide)
    exact Call.read?_of_notMem hopen clause
  | call c => exact c.read?_chars clause

theorem exists_front (source : WrittenSource) :
    ∃ rest, source.chars = source.front ++ rest ∧ NameEnds rest := by
  cases source with
  | path p => exact ⟨[], (List.append_nil _).symm, nameEnds_nil⟩
  | call c => exact ⟨_, rfl, c.nameEnds_behind⟩

theorem isBlank_front (source : WrittenSource) : ∀ c ∈ source.front, isBlank c = false := by
  cases source with
  | path p => exact isBlank_of_isFieldPath p.2
  | call c => exact c.isBlank_word

theorem label_ne_star (source : WrittenSource) : source.label ≠ "*" := by
  cases source with
  | path p => exact ofList_ne_star p.2
  | call c => exact c.call.label_ne_star

end WrittenSource
end TableQuery
