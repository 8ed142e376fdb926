import TableQuery.Filter.Reader
import TableQuery.Proofs.Query.Cuts
import TableQuery.Proofs.Query.WrittenLiteral

/-! # Conditions as they are written

A condition is a field path and a test of it: a comparison with a literal, a list of
candidates, two bounds, or a test for null. Words stand in capitals with one blank
between them. Every condition written in this way reads back to itself.
-/
namespace TableQuery
open Text Nesting

/-- The operators that stand between a field and one literal, each with NOT or without. Only
patterns take a NOT. -/
def comparisons : List (Operator × Bool) :=
  [(.equal, false), (.notEqual, false), (.unlike, false), (.greater, false), (.less, false),
    (.atLeast, false), (.atMost, false), (.like, false), (.ilike, false), (.like, true),
    (.ilike, true)]

inductive WrittenTest where
  | compares (operator : Operator) (negated : Bool) (literal : Literal)
    (known : (operator, negated) ∈ comparisons)
  | isIn (negated : Bool) (items : List Literal)
  | between (negated : Bool) (low high : Number.ExactInt)
  | isNull (negated : Bool)

def withNot (negated : Bool) (word : List Char) : List Char :=
  if negated then "NOT ".toList ++ word else word

namespace WrittenTest

def chars : WrittenTest → List Char
  | compares operator negated literal _ =>
    withNot negated operator.name.toList ++ ' ' :: literal.chars
  | isIn negated items =>
    withNot negated "IN".toList ++ ' ' :: '(' :: (joined (items.map Literal.chars) ++ [')'])
  | between negated low high =>
    withNot negated "BETWEEN".toList ++
      ' ' :: (Number.intChars low ++ (" AND ".toList ++ Number.intChars high))
  | isNull negated => "IS ".toList ++ withNot negated "NULL".toList

def condition (field : String) : WrittenTest → Condition
  | compares operator negated literal _ => ⟨field, operator, literal.value, negated⟩
  | isIn negated items => ⟨field, .isIn, .list (items.map Literal.value), negated⟩
  | between negated low high =>
    ⟨field, .between, .list [.int (Number.ofInt low), .int (Number.ofInt high)], negated⟩
  | isNull negated => ⟨field, if negated then .isOther else .isSame, .null, false⟩

end WrittenTest

/-- The words that are no fields, because the reader takes them for parts of a filter. -/
def filterWords : List (List Char) :=
  ["AND", "OR", "BETWEEN", "NOT", "LIKE", "ILIKE"].map String.toList

structure WrittenCondition where
  field : List Char
  test : WrittenTest
  isPath : isFieldPath field = true
  isFree : field.map Char.toUpper ∉ filterWords

namespace WrittenCondition

def chars (c : WrittenCondition) : List Char := c.field ++ ' ' :: c.test.chars

def condition (c : WrittenCondition) : Condition := c.test.condition (String.ofList c.field)

end WrittenCondition

namespace WrittenTest
open Condition

theorem notWord?_isIn (negated : Bool) (rest : List Char) :
    notWord? "IN".toList (' ' :: (withNot negated "IN".toList ++ rest)) = some (negated, rest) := by
  cases negated <;> rfl

theorem notWord?_between (negated : Bool) (rest : List Char) :
    notWord? "BETWEEN".toList (' ' :: (withNot negated "BETWEEN".toList ++ rest)) =
      some (negated, rest) := by
  cases negated <;> rfl

theorem nullTest?_isNull (negated : Bool) :
    nullTest? (' ' :: (isNull negated).chars) =
      some (if negated then Operator.isOther else .isSame) := by
  cases negated <;> rfl

theorem unworded_compares {c : Operator × Bool} (h : c ∈ comparisons) (rest : List Char) :
    nullTest? (' ' :: (withNot c.2 c.1.name.toList ++ ' ' :: rest)) = none ∧
      notWord? "BETWEEN".toList (' ' :: (withNot c.2 c.1.name.toList ++ ' ' :: rest)) = none ∧
      notWord? "IN".toList (' ' :: (withNot c.2 c.1.name.toList ++ ' ' :: rest)) = none := by
  unfold comparisons at h
  fin_cases h <;> exact ⟨rfl, rfl, rfl⟩

theorem isOrdinary_compares {c : Operator × Bool} (h : c ∈ comparisons) :
    withNot c.2 c.1.name.toList ≠ [] ∧
      ∀ x ∈ withNot c.2 c.1.name.toList, isOrdinary x = true := by
  unfold comparisons at h
  fin_cases h <;> decide

theorem operatorAt?_compares {c : Operator × Bool} (h : c ∈ comparisons) (rest : List Char) :
    operatorAt? true (withNot c.2 c.1.name.toList ++ ' ' :: rest) =
      some (c.1, c.2, ' ' :: rest) := by
  unfold comparisons at h
  fin_cases h <;> rfl

theorem nullTest?_isIn (negated : Bool) (rest : List Char) :
    nullTest? (' ' :: (withNot negated "IN".toList ++ ' ' :: rest)) = none := by
  cases negated <;> rfl

theorem nullTest?_between (negated : Bool) (rest : List Char) :
    nullTest? (' ' :: (withNot negated "BETWEEN".toList ++ ' ' :: rest)) = none := by
  cases negated <;> rfl

theorem notWord?_between_isIn (negated : Bool) (rest : List Char) :
    notWord? "BETWEEN".toList (' ' :: (withNot negated "IN".toList ++ ' ' :: rest)) = none := by
  cases negated <;> rfl

theorem withNot_ordinary (negated : Bool) {word : List Char}
    (h : ∀ c ∈ word, isNameChar c = true) : ∀ c ∈ withNot negated word, isOrdinary c = true := by
  intro c hc
  cases negated with
  | false => exact isOrdinary_of_isNameChar (h c hc)
  | true =>
    rcases List.mem_append.mp hc with hc | hc
    · exact (by decide : ∀ c ∈ "NOT ".toList, isOrdinary c = true) c hc
    · exact isOrdinary_of_isNameChar (h c hc)

theorem balanced_chars (t : WrittenTest) : Balanced t.chars := by
  have hblank : Balanced [' '] := balanced_gap isGap_space
  cases t with
  | compares operator negated literal known =>
    have ho := balanced_of_ordinary (isOrdinary_compares known).2
    exact ho.append (hblank.append literal.isItem_chars.balanced)
  | isIn negated items =>
    have hitems : Balanced (joined (items.map Literal.chars)) := by
      apply balanced_joined
      intro item hi
      obtain ⟨l, -, rfl⟩ := List.mem_map.mp hi
      exact l.isItem_chars
    have hword := balanced_of_ordinary (withNot_ordinary negated (by decide : ∀ c ∈ "IN".toList, _))
    exact hword.append (hblank.append (balanced_parentheses hitems))
  | between negated low high =>
    have hword := balanced_of_ordinary
      (withNot_ordinary negated (by decide : ∀ c ∈ "BETWEEN".toList, _))
    have hlow : Balanced (Number.intChars low) := (Literal.whole low).isItem_chars.balanced
    have hhigh : Balanced (Number.intChars high) := (Literal.whole high).isItem_chars.balanced
    have hand : Balanced " AND ".toList := by decide
    exact hword.append (hblank.append (hlow.append (hand.append hhigh)))
  | isNull negated => cases negated <;> decide

theorem balanced_behind {field : List Char} (hf : isFieldPath field = true) (t : WrittenTest) :
    Balanced (field ++ ' ' :: t.chars) :=
  (balanced_of_isFieldPath hf).append ((balanced_gap isGap_space).append t.balanced_chars)

theorem chars_last (t : WrittenTest) :
    t.chars ≠ [] ∧ ∀ c ∈ t.chars.getLast?, isBlank c = false := by
  cases t with
  | compares operator negated literal known =>
    have hl := literal.chars_ne_nil
    refine ⟨by simp [chars], ?_⟩
    rw [chars, getLast?_of_append (List.cons_ne_nil _ _), ← List.singleton_append,
      getLast?_of_append hl]
    exact literal.isTrimmed_chars.2
  | isIn negated items =>
    refine ⟨by simp [chars], ?_⟩
    intro c hc
    rw [chars, getLast?_of_append (List.cons_ne_nil _ _), ← List.cons_append, ← List.cons_append,
      getLast?_of_append (List.cons_ne_nil _ _)] at hc
    cases Option.some.inj hc
    decide
  | between negated low high =>
    have hh := Number.intChars_ne_nil high
    refine ⟨by simp [chars], ?_⟩
    rw [chars, getLast?_of_append (List.cons_ne_nil _ _), ← List.cons_append,
      ← List.append_assoc, getLast?_of_append hh]
    exact (Literal.whole high).isTrimmed_chars.2
  | isNull negated => cases negated <;> decide

end WrittenTest

namespace Condition

theorem trimStart_blank {cs : List Char} (h : ∀ c ∈ cs.head?, isBlank c = false) :
    trimStart (' ' :: cs) = cs := by
  rw [show ' ' :: cs = [' '] ++ cs from rfl, trimStart_gap_append (by decide), trimStart_of_head h]

theorem afterAnd?_and {cs : List Char} (hn : cs ≠ []) (hb : ∀ c ∈ cs.head?, isBlank c = false) :
    afterAnd? (" AND ".toList ++ cs) = some cs := by
  have hblanks : (followedBy? "AND".toList (" AND ".toList ++ cs)).bind blanks? =
      some (trimStart (' ' :: cs)) := rfl
  obtain ⟨c, rest, rfl⟩ := List.exists_cons_of_ne_nil hn
  rw [afterAnd?, hblanks, trimStart_blank hb]

theorem afterAnd?_of_head {c : Char} (hc : isBlank c = false) (cs : List Char) :
    afterAnd? (c :: cs) = none := by
  simp [afterAnd?, followedBy?, blanks?, hc]

theorem cutAtAnd?_append {low high : List Char} (hl : low ≠ [])
    (hlb : ∀ c ∈ low, isBlank c = false) (hh : high ≠ [])
    (hhb : ∀ c ∈ high.head?, isBlank c = false) :
    cutAtAnd? (low ++ (" AND ".toList ++ high)) = some (low, high) := by
  induction low with
  | nil => exact absurd rfl hl
  | cons c low ih =>
    rw [List.cons_append, cutAtAnd?]
    cases low with
    | nil => rw [List.nil_append, afterAnd?_and hh hhb]
    | cons d low =>
      have hd := hlb d (List.mem_cons_of_mem _ List.mem_cons_self)
      have hrest := ih (List.cons_ne_nil _ _) fun x hx => hlb x (List.mem_cons_of_mem _ hx)
      rw [hrest, List.cons_append, afterAnd?_of_head hd]
      rfl

theorem bounds?_append {low high : List Char} (hl : low ≠ [])
    (hlb : ∀ c ∈ low, isBlank c = false) (hh : high ≠ [])
    (hhb : ∀ c ∈ high.head?, isBlank c = false) :
    bounds? (' ' :: (low ++ (" AND ".toList ++ high))) = some (low, high) := by
  have hstart : trimStart (low ++ (" AND ".toList ++ high)) = low ++ (" AND ".toList ++ high) := by
    apply trimStart_of_head
    obtain ⟨c, rest, rfl⟩ := List.exists_cons_of_ne_nil hl
    intro d hd
    cases Option.some.inj hd
    exact hlb c List.mem_cons_self
  rw [bounds?, blanks?, if_pos (by decide), hstart, Option.bind_some,
    cutAtAnd?_append hl hlb hh hhb]

theorem cutAtOperator?_append {n : Nesting} {start : Bool} {cs rest : List Char}
    (h : ∀ a c b, cs = a ++ c :: b →
      operatorAt? (startBehind start a) (c :: b ++ rest) = none) :
    cutAtOperator? n start (cs ++ rest) =
      (cutAtOperator? (behind n cs) (startBehind start cs) rest).map
        fun (before, found) => (cs ++ before, found) := by
  induction cs generalizing n start with
  | nil =>
    cases hc : cutAtOperator? n start rest with
    | none => simp [hc]
    | some found => simp [hc]
  | cons c cs ih =>
    have hc : (if n.isTop c then operatorAt? start (c :: (cs ++ rest)) else none) = none := by
      split
      · exact h [] c cs rfl
      · rfl
    rw [List.cons_append, cutAtOperator?, hc, ih fun a d b hd => h (c :: a) d b (by rw [hd]; rfl),
      Option.map_map]
    rfl

theorem signs?_eq_none {c : Char} (h1 : c ≠ '>') (h2 : c ≠ '<') (h3 : c ≠ '!') (h4 : c ≠ '=')
    (cs : List Char) : signs? (c :: cs) = none := by
  unfold signs?
  split <;> first | rfl | exact absurd (List.cons.inj (by assumption)).1 (by assumption)

/-- A word of a filter is not found at the start of a field, unless the word goes on. -/
theorem patternWordEnds_of_word? {field rest r w : List Char} (hf : isFieldPath field = true)
    (hw : IsCapital w) (hn : field.map Char.toUpper ≠ w)
    (h : word? w (field ++ ' ' :: rest) = some r) : patternWordEnds r = false := by
  cases hr : patternWordEnds r with
  | false => rfl
  | true =>
    refine absurd (eq_of_word? hw (nameEnds_of_wordEnds rfl) h ?_) hn
    intro c hc hm
    obtain ⟨r, rfl⟩ : ∃ cs, r = c :: cs := by
      cases r with
      | nil => cases hc
      | cons d r => exact ⟨r, by cases Option.some.inj hc; rfl⟩
    have hp := isPathChar_of_isFieldPath hf hm
    rw [patternWordEnds, isBlank_of_isPathChar hp, Bool.false_or, isQuote, Bool.or_eq_true,
      beq_iff_eq, beq_iff_eq] at hr
    rcases hr with rfl | rfl <;> exact absurd hp (by decide)

/-- A pattern operator with a word that stands at the start of a text, if there is a text. -/
def patternOf? (start : Option (List Char)) (word : String) (operator : Operator)
    (negated : Bool) : Option (Operator × Bool × List Char) :=
  match start.bind (word? word.toList) with
  | some rest => if patternWordEnds rest then some (operator, negated, rest) else none
  | none => none

theorem patternWord?_eq (cs : List Char) : patternWord? cs =
    let negatedRest := (word? "NOT".toList cs).bind blanks?
    (patternOf? negatedRest "ILIKE" .ilike true).or ((patternOf? negatedRest "LIKE" .like true).or
      ((patternOf? (some cs) "ILIKE" .ilike false).or
        (patternOf? (some cs) "LIKE" .like false))) := by
  have hstep {entry : Option (List Char) × String × Operator × Bool} {entries : List _} :
      (entry :: entries).findSome? (fun e => patternOf? e.1 e.2.1 e.2.2.1 e.2.2.2) =
        (patternOf? entry.1 entry.2.1 entry.2.2.1 entry.2.2.2).or
          (entries.findSome? fun e => patternOf? e.1 e.2.1 e.2.2.1 e.2.2.2) := by
    rw [List.findSome?_cons]
    cases patternOf? entry.1 entry.2.1 entry.2.2.1 entry.2.2.2 <;> rfl
  change List.findSome? (fun e : Option (List Char) × String × Operator × Bool =>
    patternOf? e.1 e.2.1 e.2.2.1 e.2.2.2) _ = _
  rw [hstep, hstep, hstep, hstep, List.findSome?_nil, Option.or_none]

theorem patternWord?_eq_none {field rest : List Char} (hf : isFieldPath field = true)
    (hw : field.map Char.toUpper ∉ filterWords) :
    patternWord? (field ++ ' ' :: rest) = none := by
  have hwords {w : List Char} (hm : w ∈ filterWords) : field.map Char.toUpper ≠ w := by
    rintro rfl
    exact hw hm
  have hnot : (word? "NOT".toList (field ++ ' ' :: rest)).bind blanks? = none := by
    cases hr : word? "NOT".toList (field ++ ' ' :: rest) with
    | none => rfl
    | some r =>
      have hend := patternWordEnds_of_word? hf (by decide) (hwords (by decide)) hr
      cases r with
      | nil => rfl
      | cons c r =>
        rw [patternWordEnds, Bool.or_eq_false_iff] at hend
        rw [Option.bind_some, blanks?, hend.1, if_neg Bool.false_ne_true]
  have hlike {w : String} (hc : IsCapital w.toList) (hm : w.toList ∈ filterWords)
      (operator : Operator) : patternOf? (some (field ++ ' ' :: rest)) w operator false = none := by
    rw [patternOf?, Option.bind_some]
    cases hr : word? w.toList (field ++ ' ' :: rest) with
    | none => rfl
    | some r =>
      change (if patternWordEnds r = true then _ else _) = none
      rw [patternWordEnds_of_word? hf hc (hwords hm) hr, if_neg Bool.false_ne_true]
  rw [patternWord?_eq, hnot]
  simp only [hlike (by decide : IsCapital "ILIKE".toList) (by decide),
    hlike (by decide : IsCapital "LIKE".toList) (by decide)]
  rfl

/-- The first operator behind a field and a blank is the one that follows them. -/
theorem cutAtOperator?_field {field rest : List Char} (hf : isFieldPath field = true)
    (hw : field.map Char.toUpper ∉ filterWords) {c : Char} {operator : Operator} {negated : Bool}
    {behind : List Char} (hc : isOrdinary c = true)
    (ho : operatorAt? true (c :: rest) = some (operator, negated, behind)) :
    cutAtOperator? (.outside 0) true (field ++ ' ' :: c :: rest) =
      some (field ++ [' '], operator, negated, behind) := by
  have hpath : ∀ d ∈ field, isPathChar d = true := fun d hd => isPathChar_of_isFieldPath hf hd
  have hfree : ∀ a d b, field = a ++ d :: b →
      operatorAt? (startBehind true a) (d :: b ++ ' ' :: c :: rest) = none := by
    intro a d b hab
    have hd : isPathChar d = true := hpath d (hab ▸ List.mem_append_right a List.mem_cons_self)
    have hsigns : signs? (d :: b ++ ' ' :: c :: rest) = none := by
      apply signs?_eq_none <;> rintro rfl <;> exact absurd hd (by decide)
    rw [operatorAt?, hsigns]
    change (if startBehind true a = true then
      patternWord? (d :: b ++ ' ' :: c :: rest) else none) = none
    cases hl : a.getLast? with
    | none =>
      obtain rfl := List.getLast?_eq_none_iff.mp hl
      rw [List.nil_append] at hab
      rw [← hab, patternWord?_eq_none hf hw, ite_self]
    | some e =>
      have he := hpath e (hab ▸ List.mem_append_left _ (List.mem_of_getLast? hl))
      rw [startBehind_eq_getLast?, hl, Option.map_some, Option.getD_some,
        isBlank_of_isPathChar he, if_neg Bool.false_ne_true]
  have hbehind : Nesting.behind (.outside 0) field = .outside 0 :=
    (balanced_of_isFieldPath hf).behind_eq
  have hstart := startBehind_of_last (ne_nil_of_isFieldPath hf) (isTrimmed_of_isFieldPath hf).2 true
  have hblank : cutAtOperator? (.outside 0) false (' ' :: c :: rest) =
      (cutAtOperator? (.outside 0) true (c :: rest)).map
        fun (before, found) => (' ' :: before, found) := rfl
  have htop : (outside 0).isTop c = true := by
    simp [isTop, hc]
  rw [cutAtOperator?_append hfree, hbehind, hstart, hblank, cutAtOperator?, if_pos htop, ho]
  rfl

theorem readWorded?_eq_none {cs path rest : List Char} (hp : leadingPath? cs = some (path, rest))
    (hnull : nullTest? rest = none) (hbetween : notWord? "BETWEEN".toList rest = none)
    (hin : notWord? "IN".toList rest = none) : readWorded? cs = none := by
  simp only [readWorded?, hp, hnull, hbetween, hin, Option.bind_none]

end Condition

namespace WrittenTest
open Condition

variable {field : List Char}

theorem read_isNull (hf : isFieldPath field = true) (negated : Bool) :
    readWorded? (field ++ ' ' :: (isNull negated).chars) =
      some (.ok ((isNull negated).condition (String.ofList field))) := by
  have hp := leadingPath?_spaced hf (isNull negated).chars
  simp only [readWorded?, hp, nullTest?_isNull]
  rfl

theorem read_isIn (hf : isFieldPath field = true) (negated : Bool) (items : List Literal) :
    readWorded? (field ++ ' ' :: (isIn negated items).chars) =
      some (.ok ((isIn negated items).condition (String.ofList field))) := by
  have hp := leadingPath?_spaced hf (isIn negated items).chars
  have hinner : parenthesized? (' ' :: '(' :: (joined (items.map Literal.chars) ++ [')'])) =
      some (joined (items.map Literal.chars)) := by
    have ht : trimStart (' ' :: '(' :: (joined (items.map Literal.chars) ++ [')'])) =
        '(' :: (joined (items.map Literal.chars) ++ [')']) := rfl
    simp [parenthesized?, ht]
  rw [chars] at hp ⊢
  simp only [readWorded?, hp, nullTest?_isIn, notWord?_between_isIn, notWord?_isIn,
    Option.bind_none, Option.bind_some, hinner, Option.map_some, Literal.readLiterals_joined]
  rfl

theorem read_between (hf : isFieldPath field = true) (negated : Bool)
    (low high : Number.ExactInt) :
    readWorded? (field ++ ' ' :: (between negated low high).chars) =
      some (.ok ((between negated low high).condition (String.ofList field))) := by
  have hp := leadingPath?_spaced hf (between negated low high).chars
  have hbounds := bounds?_append (Number.intChars_ne_nil low)
    (fun c hc => Literal.isBlank_of_mem_intChars hc) (Number.intChars_ne_nil high)
    (fun c hc => Literal.isBlank_of_mem_intChars (List.mem_of_mem_head? hc))
  rw [chars] at hp ⊢
  simp only [readWorded?, hp, nullTest?_between, notWord?_between, Option.bind_some, hbounds,
    Option.map_some, Literal.readLiteral_intChars]
  rfl

theorem read_compares (hf : isFieldPath field = true) (hw : field.map Char.toUpper ∉ filterWords)
    {operator : Operator} {negated : Bool} (literal : Literal)
    (known : (operator, negated) ∈ comparisons) :
    let test := compares operator negated literal known
    readWorded? (field ++ ' ' :: test.chars) = none ∧
      readComparison (field ++ ' ' :: test.chars) =
        .ok (test.condition (String.ofList field)) := by
  intro test
  have hp := leadingPath?_spaced hf test.chars
  obtain ⟨hnull, hbetween, hin⟩ := unworded_compares known literal.chars
  refine ⟨readWorded?_eq_none hp hnull hbetween hin, ?_⟩
  have hbalanced := test.balanced_behind hf
  have hcut : cutAtOperator? (.outside 0) true (field ++ ' ' :: test.chars) =
      some (field ++ [' '], operator, negated, ' ' :: literal.chars) := by
    obtain ⟨hne, hordinary⟩ := isOrdinary_compares known
    have ho := operatorAt?_compares known literal.chars
    obtain ⟨c, w, hcw⟩ := List.exists_cons_of_ne_nil hne
    simp only [test, chars, hcw, List.cons_append] at ho ⊢
    exact cutAtOperator?_field hf hw (hordinary c (hcw ▸ List.mem_cons_self)) ho
  have htrimField : trim (field ++ [' ']) = field := by
    have h := trim_between isGap_nil (isTrimmed_of_isFieldPath hf) isGap_space
    rwa [List.nil_append] at h
  have htrimValue : trim (' ' :: literal.chars) = literal.chars := by
    have h := trim_between isGap_space literal.isTrimmed_chars isGap_nil
    rwa [List.append_nil] at h
  have hfieldEmpty : field.isEmpty = false := by simpa using ne_nil_of_isFieldPath hf
  have hvalueEmpty : literal.chars.isEmpty = false := by simpa using literal.chars_ne_nil
  unfold readComparison
  simp only [requireBalance_of_balanced hbalanced, hcut, htrimField, htrimValue, hfieldEmpty, hf,
    hvalueEmpty, Literal.readLiteral_chars]
  rfl

end WrittenTest

namespace WrittenCondition

theorem isTrimmed_chars (c : WrittenCondition) : IsTrimmed c.chars := by
  obtain ⟨hn, hl⟩ := c.test.chars_last
  refine (isTrimmed_of_isFieldPath c.isPath).append (ne_nil_of_isFieldPath c.isPath)
    (List.cons_ne_nil _ _) ?_
  rw [← List.singleton_append, getLast?_of_append hn]
  exact hl

theorem read_chars (c : WrittenCondition) : Condition.read c.chars = .ok c.condition := by
  have hempty : c.chars.isEmpty = false := by simp [chars]
  rw [Condition.read]
  simp only [c.isTrimmed_chars.trim_eq, hempty, Bool.false_eq_true, ↓reduceIte]
  obtain ⟨field, test, hf, hw⟩ := c
  change (Condition.readWorded? (field ++ ' ' :: test.chars)).getD
    (Condition.readComparison (field ++ ' ' :: test.chars)) =
      .ok (test.condition (String.ofList field))
  cases test with
  | compares operator negated literal known =>
    obtain ⟨hnone, hread⟩ := WrittenTest.read_compares hf hw literal known
    rw [hnone, hread]
    rfl
  | isIn negated items => rw [WrittenTest.read_isIn hf]; rfl
  | between negated low high => rw [WrittenTest.read_between hf]; rfl
  | isNull negated => rw [WrittenTest.read_isNull hf]; rfl

end WrittenCondition
end TableQuery
