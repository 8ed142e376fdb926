import TableQuery.Proofs.Data.Success
import TableQuery.Proofs.Query.WrittenSource
import TableQuery.Query.Selection

/-! # Select lists item by item

A select list is read item by item, behind the word DISTINCT where it starts with it. An item
is a path or a call, perhaps with a name behind the word AS; it adds one column to what is
selected, and an alias if it has a name.
-/
namespace TableQuery
open Text Nesting

/-- A table with one value more under a key, if there is one. -/
def Entries.enter {α : Type} (entries : List (String × α)) (key : String) :
    Option α → List (String × α)
  | some a => set entries key a
  | none => entries

theorem Entries.set_of_notMem {α : Type} {entries : List (String × α)} {key : String}
    (h : key ∉ entries.map (·.1)) (a : α) : set entries key a = entries ++ [(key, a)] := by
  have hnone : entries.lookup key = none := by
    rw [List.lookup_eq_none_iff]
    intro entry hentry
    rw [bne_iff_ne]
    rintro rfl
    exact h (List.mem_map_of_mem hentry)
  rw [set, hnone]
  rfl

namespace Selection

def readItems (distinct : Bool) (items : List Char) : Except Fault Selection := do
  if items.isEmpty then throw .emptyDistinct
  let s ← (← splitCommas .select items).foldlM addItem (empty distinct)
  if s.isStar && decide (1 < s.columns.length) then throw .starNotAlone
  pure s

/-- The items of a select list stand behind the word DISTINCT, or are the whole list. -/
theorem read_eq {cs : List Char} (h : trim cs ≠ []) : Selection.read cs =
    match afterDistinct? (trim cs) with
    | some rest => readItems true rest
    | none => readItems false (trim cs) := by
  have hempty : (trim cs).isEmpty = false := by simpa using h
  unfold Selection.read
  simp only [hempty]
  cases afterDistinct? (trim cs) <;> rfl

theorem read_trim (cs : List Char) : Selection.read (trim cs) = Selection.read cs := by
  unfold Selection.read
  rw [(isTrimmed_trim cs).trim_eq]

/-- Items are read where they can be told apart and each can be added, and the star is alone. -/
theorem readItems_eq_ok_iff {distinct : Bool} {cs : List Char} {s : Selection} :
    readItems distinct cs = .ok s ↔ cs ≠ [] ∧
      ∃ items, splitCommas .select cs = .ok items ∧
        items.foldlM addItem (empty distinct) = .ok s ∧
        (s.isStar = true → s.columns.length ≤ 1) := by
  have hlone (t : Selection) : (t.isStar && decide (1 < t.columns.length)) = false ↔
      (t.isStar = true → t.columns.length ≤ 1) := by
    rw [← Bool.not_eq_true, Bool.and_eq_true, decide_eq_true_eq, not_and, Nat.not_lt]
  unfold readItems
  constructor
  · intro h
    split at h
    · cases h
    · next hempty =>
      obtain ⟨items, hsplit, h⟩ := Success.of_bind h
      obtain ⟨t, hfold, h⟩ := Success.of_bind h
      split at h
      · cases h
      · next hstar =>
        cases Except.ok.inj h
        have hstar := (hlone s).mp (Bool.eq_false_iff.mpr hstar)
        exact ⟨by simpa using hempty, items, hsplit, hfold, hstar⟩
  · rintro ⟨hn, items, hsplit, hfold, hstar⟩
    have hempty : ¬cs.isEmpty = true := by simpa using hn
    simp only [hempty, hsplit, bind, Except.bind, hfold, (hlone s).mpr hstar]
    rfl

/-- A list that starts with a word of its own starts with DISTINCT only if that is the word. -/
theorem afterDistinct?_eq_none {front rest : List Char} (hb : ∀ c ∈ front, isBlank c = false)
    (he : NameEnds rest) (hd : front.map Char.toUpper ≠ "DISTINCT".toList) :
    afterDistinct? (front ++ rest) = none := by
  unfold afterDistinct?
  cases hw : word? "DISTINCT".toList (front ++ rest) with
  | none => rfl
  | some after =>
    dsimp only
    split
    · next hend => exact absurd (eq_of_wordEnds (by decide) hb he hw hend) hd
    · rfl

theorem afterDistinct?_append {word rest : List Char}
    (hw : word.map Char.toUpper = "DISTINCT".toList) (he : wordEnds rest = true) :
    afterDistinct? (word ++ rest) = some (trim rest) := by
  rw [afterDistinct?, word?_append hw]
  dsimp only
  rw [if_pos he]

def IsPlain (cs : List Char) : Prop := ∀ c ∈ cs, isPathChar c = true ∨ isBlank c = true

instance (cs : List Char) : Decidable (IsPlain cs) := inferInstanceAs (Decidable (∀ c ∈ cs, _))

theorem isPlain_of_isFieldPath {path : List Char} (h : isFieldPath path = true) : IsPlain path :=
  fun _ hc => Or.inl (isPathChar_of_isFieldPath h hc)

theorem isPlain_append {a b : List Char} : IsPlain (a ++ b) ↔ IsPlain a ∧ IsPlain b := by
  simp only [IsPlain, List.mem_append, or_imp, forall_and]

theorem isPlain_gap {g : List Char} (h : IsGap g) : IsPlain g := fun c hc => Or.inr (h c hc)

variable {item : List Char}

theorem IsPlain.notMem (h : IsPlain item) {c : Char} (hp : isPathChar c = false)
    (hb : isBlank c = false) : c ∉ item := by
  intro hc
  rcases h c hc with hc | hc
  · rw [hp] at hc
    cases hc
  · rw [hb] at hc
    cases hc

theorem IsPlain.isOrdinary (h : IsPlain item) : ∀ c ∈ item, isOrdinary c = true := by
  intro c hc
  rcases h c hc with hc | hc
  · exact isOrdinary_of_isPathChar hc
  · exact isOrdinary_of_isBlank hc

theorem IsPlain.isItem (h : IsPlain item) (ht : IsTrimmed item) : IsItem item :=
  ⟨ht, balanced_of_ordinary h.isOrdinary, commaFree_of_notMem (h.notMem (by decide) (by decide))⟩

theorem isItem_append (source : WrittenSource) {tail : List Char} (h : IsPlain tail)
    (hlast : ∀ c ∈ tail.getLast?, isBlank c = false) : IsItem (source.chars ++ tail) := by
  refine ⟨?_, source.balanced_chars.append (balanced_of_ordinary h.isOrdinary), ?_⟩
  · by_cases hn : tail = []
    · rw [hn, List.append_nil]
      exact source.isTrimmed_chars
    · exact source.isTrimmed_chars.append source.chars_ne_nil hn hlast
  · apply commaFree_of_notMem
    intro hcomma
    rcases List.mem_append.mp hcomma with hcomma | hcomma
    · exact source.comma_notMem hcomma
    · exact h.notMem (by decide) (by decide) hcomma

theorem aliased?_of_nameEnds {item : List Char} (h : NameEnds item.reverse) :
    aliased? item = none := by
  have htake : item.reverse.takeWhile isNameChar = [] := by
    cases hr : item.reverse with
    | nil => rfl
    | cons c cs => exact List.takeWhile_cons_of_neg (by simpa using h c (by rw [hr]; rfl))
  unfold aliased?
  simp only [htake]
  split
  · simp [isName]
  · rfl

theorem aliased?_of_noBlank {item : List Char} (hb : ∀ c ∈ item, isBlank c = false) :
    aliased? item = none := by
  unfold aliased?
  dsimp only
  split
  · next c rest _ _ hrest _ =>
    have hmem : c ∈ item.reverse.dropWhile isNameChar := by
      rw [hrest]
      exact List.mem_cons_self
    have hc := hb c (List.mem_reverse.mp (List.dropWhile_subset _ hmem))
    rw [hc, Bool.false_and, if_neg Bool.false_ne_true]
  · rfl

/-- The last word of an item is its alias if AS stands in front of it, between blanks. -/
theorem aliased?_append {g name : List Char} (hg : IsGap g) (hne : g ≠ [])
    (hn : isName name = true) (before : List Char) :
    aliased? (before ++ (g ++ name)) =
      match (word? "SA".toList (trimStart before.reverse)).bind blanks? with
      | some (e :: es) => some ((e :: es).reverse, name)
      | _ => none := by
  have hall : ∀ c ∈ name.reverse, isNameChar c = true :=
    fun c hc => isNameChar_of_isName hn (List.mem_reverse.mp hc)
  have hback : (before ++ (g ++ name)).reverse = name.reverse ++ (g.reverse ++ before.reverse) := by
    simp
  obtain ⟨c, cs, hrev⟩ := List.exists_cons_of_ne_nil (fun h => hne (List.reverse_eq_nil_iff.mp h))
  have hgap : IsGap (c :: cs) := hrev ▸ isGap_reverse.mpr hg
  have hblank : isBlank c = true := (isGap_cons.mp hgap).1
  have hstop : NameEnds (g.reverse ++ before.reverse) := by
    rw [hrev]
    exact nameEnds_of_wordEnds hblank
  obtain ⟨htake, hdrop⟩ := span_append hall hstop
  have htrim : trimStart (c :: (cs ++ before.reverse)) = trimStart before.reverse :=
    trimStart_gap_append hgap before.reverse
  unfold aliased?
  simp only [hback, htake, hdrop, List.reverse_reverse]
  rw [hrev, List.cons_append]
  simp only [htrim, hn]
  generalize (word? "SA".toList (trimStart before.reverse)).bind blanks? = expression
  cases expression with
  | none => rfl
  | some cs =>
    cases cs with
    | nil => rfl
    | cons e es => simp [hblank]

end Selection

/-- A name behind the word AS, with the blanks in front of both. -/
structure WrittenAlias where
  before : Blanks
  word : Spelling "AS"
  after : Blanks
  name : {cs : List Char // isName cs = true}

def WrittenAlias.chars (a : WrittenAlias) : List Char :=
  a.before.1 ++ (a.word.1 ++ (a.after.1 ++ a.name.1))

namespace WrittenAlias
open Selection
variable (a : WrittenAlias)

theorem getLast?_chars : a.chars.getLast? = a.name.1.getLast? := by
  have hname := ne_nil_of_isFieldPath (isFieldPath_of_isName a.name.2)
  rw [chars, ← List.append_assoc, ← List.append_assoc, getLast?_of_append hname]

theorem nameEnds_chars : NameEnds a.chars :=
  nameEnds_of_wordEnds (wordEnds_gap_append a.before.2.2 a.before.2.1 _)

theorem isPlain_chars : IsPlain a.chars := by
  have hword : IsPlain a.word.1 := fun c hc => Or.inl (a.word.isPathChar (by decide) hc)
  have hname := isPlain_of_isFieldPath (isFieldPath_of_isName a.name.2)
  unfold chars
  simp only [isPlain_append]
  exact ⟨isPlain_gap a.before.2.2, hword, isPlain_gap a.after.2.2, hname⟩

theorem aliased?_append {cs : List Char} (hn : cs ≠ []) (ht : IsTrimmed cs) :
    aliased? (cs ++ a.chars) = some (cs, a.name.1) := by
  -- an item is searched from its end, so the letters of AS are met the other way round
  have hreverse : (cs ++ (a.before.1 ++ a.word.1)).reverse =
      a.word.1.reverse ++ (a.before.1.reverse ++ cs.reverse) := by simp
  have hword : word? "SA".toList (trimStart (cs ++ (a.before.1 ++ a.word.1)).reverse) =
      some (a.before.1.reverse ++ cs.reverse) := by
    have hspells : a.word.1.reverse.map Char.toUpper = "SA".toList := by
      rw [List.map_reverse, a.word.2]
      rfl
    have htrimmed : IsTrimmed a.word.1.reverse :=
      isTrimmed_reverse.mpr (isTrimmed_of_forall (a.word.isBlank (by decide)))
    have hne : a.word.1.reverse ≠ [] := by simpa using a.word.ne_nil (by decide)
    rw [hreverse, trimStart_of_head (htrimmed.head_append hne _), word?_append hspells]
  have hblanks : blanks? (a.before.1.reverse ++ cs.reverse) = some cs.reverse := by
    rw [blanks?_gap_append (isGap_reverse.mpr a.before.2.2) (by simpa using a.before.2.1),
      trimStart_of_head (isTrimmed_reverse.mpr ht).1]
  have hchars : cs ++ a.chars =
      cs ++ (a.before.1 ++ a.word.1) ++ (a.after.1 ++ a.name.1) := by simp [chars]
  obtain ⟨e, es, hcs⟩ := List.exists_cons_of_ne_nil
    (fun h => hn (List.reverse_eq_nil_iff.mp h))
  rw [hchars, Selection.aliased?_append a.after.2.2 a.after.2.1 a.name.2, hword,
    Option.bind_some, hblanks, hcs]
  dsimp only
  rw [← hcs, List.reverse_reverse]

end WrittenAlias

/-- A source with or without an alias. -/
structure WrittenItem where
  source : WrittenSource
  alias? : Option WrittenAlias

namespace WrittenItem
open Selection

def chars (i : WrittenItem) : List Char := i.source.chars ++ i.alias?.elim [] WrittenAlias.chars

def column (i : WrittenItem) : String :=
  match i.alias? with
  | some a => String.ofList a.name.1
  | none => i.source.label

/-- The path or label that an alias of the item stands for. -/
def standsFor? (i : WrittenItem) : Option String := i.alias?.map fun _ => i.source.label

def add (i : WrittenItem) (s : Selection) : Selection where
  columns := s.columns ++ [i.column]
  distinct := s.distinct
  calls := Entries.enter s.calls i.column i.source.call?
  aliases := Entries.enter s.aliases i.column i.standsFor?

variable (i : WrittenItem)

theorem chars_ne_nil : i.chars ≠ [] := by simp [chars, i.source.chars_ne_nil]

theorem isItem_chars : IsItem i.chars := by
  obtain ⟨source, _ | a⟩ := i
  · exact isItem_append source nofun nofun
  · apply isItem_append source a.isPlain_chars
    rw [a.getLast?_chars]
    exact (isTrimmed_of_isFieldPath (isFieldPath_of_isName a.name.2)).2

theorem exists_front : ∃ rest, i.chars = i.source.front ++ rest ∧ NameEnds rest := by
  obtain ⟨rest, hchars, hrest⟩ := i.source.exists_front
  refine ⟨rest ++ i.alias?.elim [] WrittenAlias.chars, ?_, hrest.append ?_⟩
  · rw [chars, hchars, List.append_assoc]
  · cases i.alias? with
    | none => exact nameEnds_nil
    | some a => exact a.nameEnds_chars

theorem column_ne_star : i.column ≠ "*" := by
  obtain ⟨source, _ | a⟩ := i
  · exact source.label_ne_star
  · exact ofList_ne_star (isFieldPath_of_isName a.name.2)

theorem aliased?_chars :
    aliased? i.chars = i.alias?.map fun a => (i.source.chars, a.name.1) := by
  obtain ⟨source, _ | a⟩ := i
  · change aliased? (source.chars ++ []) = none
    rw [List.append_nil]
    cases source with
    | path p => exact aliased?_of_noBlank (isBlank_of_isFieldPath p.2)
    | call c =>
      refine aliased?_of_nameEnds ?_
      intro d hd
      rw [List.head?_reverse] at hd
      cases c.getLast?_chars.symm.trans hd
      decide
  · exact a.aliased?_append source.chars_ne_nil source.isTrimmed_chars

theorem addItem_chars (s : Selection) : s.addItem i.chars = .ok (i.add s) := by
  have hempty : i.chars.isEmpty = false := by simpa using i.chars_ne_nil
  have halias := i.aliased?_chars
  have hread := i.source.read?_chars .select
  have htrim := i.source.isTrimmed_chars.trim_eq
  unfold addItem
  rw [halias, hempty, if_neg Bool.false_ne_true]
  obtain ⟨source, alias?⟩ := i
  cases alias? with
  | none =>
    have hchars : (WrittenItem.mk source none).chars = source.chars := List.append_nil _
    simp only [Option.map_none, hchars, hread]
    cases source with
    | path p =>
      have hpath : isFieldPath (WrittenSource.path p).chars = true := p.2
      simp only [hpath, WrittenSource.call?, Bool.not_true, Bool.and_false]
      rfl
    | call c => rfl
  | some a =>
    simp only [Option.map_some, hread, htrim]
    cases source with
    | path p =>
      have hpath : isFieldPath (WrittenSource.path p).chars = true := p.2
      simp only [hpath, WrittenSource.call?]
      rfl
    | call c => rfl

end WrittenItem
end TableQuery
