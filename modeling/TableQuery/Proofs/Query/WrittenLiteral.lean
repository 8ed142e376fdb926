import TableQuery.Query.Literal
import TableQuery.Proofs.Number.Whole
import TableQuery.Proofs.Query.Commas
import TableQuery.Proofs.Query.QuotedRun

/-! # Literals as they are written

Null and truth values are written as words, whole numbers as digits, and any text
between quotes with its quotes and backslashes doubled. Whatever the text holds, it is
read back as it was, and nothing of it is seen at the top level.
-/
namespace TableQuery.Text
open Nesting

def double (q : Char) (cs : List Char) : List Char :=
  cs.flatMap fun c => if c = q then [c, c] else [c]

@[simp] theorem double_nil (q : Char) : double q [] = [] := rfl

theorem double_cons (q c : Char) (cs : List Char) :
    double q (c :: cs) = (if c = q then [c, c] else [c]) ++ double q cs := rfl

theorem double_cons_self (q : Char) (cs : List Char) :
    double q (q :: cs) = q :: q :: double q cs := by
  rw [double_cons, if_pos rfl]
  rfl

theorem double_cons_of_ne {q c : Char} (h : c ≠ q) (cs : List Char) :
    double q (c :: cs) = c :: double q cs := by
  rw [double_cons, if_neg h]
  rfl

theorem undouble_pair (q : Char) (cs : List Char) :
    undouble q (q :: q :: cs) = q :: undouble q cs := by
  rw [undouble, if_pos ⟨rfl, rfl⟩]

theorem undouble_cons_of_ne {q c : Char} (h : c ≠ q) (cs : List Char) :
    undouble q (c :: cs) = c :: undouble q cs := by
  cases cs with
  | nil => rfl
  | cons d cs => rw [undouble, if_neg fun he => h he.1]

theorem undouble_double (q : Char) (cs : List Char) : undouble q (double q cs) = cs := by
  induction cs with
  | nil => rfl
  | cons c cs ih =>
    by_cases hc : c = q
    · rw [hc, double_cons_self, undouble_pair, ih]
    · rw [double_cons_of_ne hc, undouble_cons_of_ne hc, ih]

theorem unbackslash_cons_of_ne {c : Char} (h : c ≠ '\\') (cs : List Char) :
    unbackslash (c :: cs) = c :: unbackslash cs := by
  cases cs with
  | nil => rfl
  | cons d cs => rw [unbackslash, if_neg h]

theorem unbackslash_double (cs : List Char) : unbackslash (double '\\' cs) = cs := by
  induction cs with
  | nil => rfl
  | cons c cs ih =>
    by_cases hc : c = '\\'
    · rw [hc, double_cons_self, unbackslash, if_pos rfl]
      exact congrArg _ ih
    · rw [double_cons_of_ne hc, unbackslash_cons_of_ne hc, ih]

/-- A character that is written twice inside a quoted text. -/
def isDoubled (c : Char) : Bool := isQuote c || c == '\\'

def escaped (cs : List Char) : List Char := cs.flatMap fun c => if isDoubled c then [c, c] else [c]

theorem escaped_eq (cs : List Char) :
    escaped cs = double '\'' (double '"' (double '\\' cs)) := by
  simp only [escaped, double, List.flatMap_assoc]
  congr 1
  funext c
  by_cases h1 : c = '\\'
  · subst h1
    rfl
  · by_cases h2 : c = '"'
    · subst h2
      rfl
    · by_cases h3 : c = '\''
      · subst h3
        rfl
      · simp [isDoubled, isQuote, h1, h2, h3]

theorem unescape_escaped (cs : List Char) : unescape (escaped cs) = cs := by
  rw [unescape, escaped_eq, undouble_double, undouble_double, unbackslash_double]

end TableQuery.Text

namespace TableQuery
open Text Nesting

inductive Literal where
  | null
  | bool (b : Bool)
  | whole (n : Number.ExactInt)
  | text (s : String)

namespace Literal

def chars : Literal → List Char
  | null => "NULL".toList
  | bool true => "TRUE".toList
  | bool false => "FALSE".toList
  | whole n => Number.intChars n
  | text s => '\'' :: (escaped s.toList ++ ['\''])

def value : Literal → Value
  | null => .null
  | bool b => .bool b
  | whole n => .int (Number.ofInt n)
  | text s => .string s

@[simp] theorem chars_text (s : String) :
    (text s).chars = '\'' :: (escaped s.toList ++ ['\'']) := rfl

theorem isBlank_of_mem_intChars {n : Int} {c : Char} (h : c ∈ Number.intChars n) :
    isBlank c = false := by
  have hd := Number.toNat_of_mem_intChars h
  rw [← Bool.not_eq_true, isBlank_iff]
  omega

theorem isTrimmed_quoted {q : Char} (hq : isQuote q = true) (body : List Char) :
    IsTrimmed (q :: (body ++ [q])) := by
  have hblank : isBlank q = false := by
    rw [isQuote, Bool.or_eq_true, beq_iff_eq, beq_iff_eq] at hq
    rcases hq with rfl | rfl <;> decide
  constructor
  · intro c hc
    cases Option.some.inj hc
    exact hblank
  · intro c hc
    rw [← List.cons_append, getLast?_of_append (List.cons_ne_nil _ _)] at hc
    cases Option.some.inj hc
    exact hblank

theorem isTrimmed_chars (l : Literal) : IsTrimmed l.chars := by
  cases l with
  | null => decide
  | bool b => cases b <;> decide
  | whole n => exact isTrimmed_of_forall fun c hc => isBlank_of_mem_intChars hc
  | text s => exact isTrimmed_quoted rfl _

theorem chars_ne_nil (l : Literal) : l.chars ≠ [] := by
  cases l with
  | null => decide
  | bool b => cases b <;> decide
  | whole n => exact Number.intChars_ne_nil n
  | text s => exact List.cons_ne_nil _ _

theorem isDoubled_escape (c : Char) : '\'' ∉ (if isDoubled c then [c, c] else [c]) ∨
    (if isDoubled c then [c, c] else [c]) = ['\'', '\''] := by
  by_cases hc : c = '\''
  · subst hc
    exact Or.inr rfl
  · refine Or.inl ?_
    cases isDoubled c <;> simp [Ne.symm hc]

/-- A written text is one quoted run, so nothing of it is seen outside its quotes. -/
theorem isQuotedRun_text (s : String) : IsQuotedRun '\'' (text s).chars :=
  ⟨escaped s.toList, quotedBody_flatMap isDoubled_escape _, rfl⟩

theorem hidden_text (s : String) (d : Nat) :
    run? (outside d) (text s).chars = some (outside d) ∧ Hidden (outside d) (text s).chars :=
  (isQuotedRun_text s).hidden rfl d

theorem isOrdinary_of_mem_intChars {n : Int} {c : Char} (h : c ∈ Number.intChars n) :
    isOrdinary c = true := by
  have hd := Number.toNat_of_mem_intChars h
  rw [isOrdinary_iff]
  refine ⟨?_, ?_, ?_, ?_⟩ <;> rintro rfl <;> revert hd <;> decide

theorem isItem_chars (l : Literal) : IsItem l.chars := by
  refine ⟨l.isTrimmed_chars, ?_, ?_⟩
  · cases l with
    | null => decide
    | bool b => cases b <;> decide
    | whole n => exact balanced_of_ordinary fun c hc => isOrdinary_of_mem_intChars hc
    | text s => exact balanced_iff.mpr (hidden_text s 0).1
  · cases l with
    | null => exact commaFree_of_notMem (by decide)
    | bool b => cases b <;> exact commaFree_of_notMem (by decide)
    | whole n =>
      apply commaFree_of_notMem
      intro hc
      exact absurd (Number.toNat_of_mem_intChars hc) (by decide)
    | text s => exact commaFree_of_hidden (hidden_text s 0).2

theorem not_isMark_of_mem_intChars {n : Int} {c : Char} (h : c ∈ Number.intChars n) :
    (c == '.' || c.toLower == 'e') = false := by
  have hd := Number.toNat_of_mem_intChars h
  have hlower : c.toLower = c := by
    unfold Char.toLower
    rw [dif_neg]
    rintro ⟨hl, -⟩
    have hl : 65 ≤ c.toNat := hl
    omega
  rw [hlower, Bool.or_eq_false_iff, beq_eq_false_iff_ne, beq_eq_false_iff_ne]
  constructor <;> rintro rfl <;> revert hd <;> decide

theorem readNumber?_intChars (n : Number.ExactInt) :
    Value.readNumber? (Number.intChars n) = some (.int (Number.ofInt n)) := by
  have htrim : trim (Number.intChars n) = Number.intChars n :=
    (isTrimmed_chars (whole n)).trim_eq
  have hmark : (Number.intChars n).any (fun c => c == '.' || c.toLower == 'e') = false := by
    rw [List.any_eq_false]
    intro c hc
    rw [not_isMark_of_mem_intChars hc]
    exact Bool.false_ne_true
  rw [Value.readNumber?, htrim, Number.ofDecimalText?_intChars]
  simp [hmark, Value.whole, Number.truncate_ofInt]

theorem capitals_eq_self {c : Char} (h : c.toNat < 97) : capitals c = [c] := by
  have hupper : c.toUpper = c := by
    rw [← Char.toNat_inj, toNat_toUpper, if_neg (by omega)]
  rw [capitals_of_ascii (by omega), hupper]

theorem upper_eq_self {cs : List Char} (h : ∀ c ∈ cs, c.toNat < 97) : upper cs = cs := by
  induction cs with
  | nil => rfl
  | cons c cs ih =>
    have hc := capitals_eq_self (h c List.mem_cons_self)
    have hcs := ih fun d hd => h d (List.mem_cons_of_mem _ hd)
    rw [upper] at hcs ⊢
    rw [List.flatMap_cons, hc, hcs, List.singleton_append]

theorem unquote?_intChars (n : Int) : unquote? (Number.intChars n) = none := by
  cases hn : Number.intChars n with
  | nil => rfl
  | cons c cs =>
    have ho := isOrdinary_of_mem_intChars (hn ▸ List.mem_cons_self : c ∈ Number.intChars n)
    obtain ⟨h1, h2, -⟩ := isOrdinary_iff.mp ho
    simp [unquote?, isQuote, h1, h2]

theorem readLiteral_intChars (n : Number.ExactInt) :
    Value.readLiteral (Number.intChars n) = .int (Number.ofInt n) := by
  have htrim : trim (Number.intChars n) = Number.intChars n :=
    (isTrimmed_chars (whole n)).trim_eq
  have hempty : (Number.intChars n).isEmpty = false := by
    simpa using Number.intChars_ne_nil n
  have hupper : upper (Number.intChars n) = Number.intChars n := by
    apply upper_eq_self
    intro c hc
    have hd := Number.toNat_of_mem_intChars hc
    omega
  have hword (w : List Char) (hw : w.any Char.isUpper = true) : Number.intChars n ≠ w := by
    rintro rfl
    obtain ⟨c, hc, hl⟩ := List.any_eq_true.mp hw
    have hd := Number.toNat_of_mem_intChars hc
    have hu := isUpper_iff.mp hl
    omega
  simp only [Value.readLiteral, htrim, hempty, hupper, Bool.false_eq_true, ↓reduceIte]
  rw [if_neg (hword "NULL".toList (by decide)), if_neg (hword "TRUE".toList (by decide)),
    if_neg (hword "FALSE".toList (by decide)), unquote?_intChars, readNumber?_intChars]
  rfl

theorem readLiteral_quoted {q : Char} (hq : isQuote q = true) (body : List Char) :
    Value.readLiteral (q :: (body ++ [q])) = .string (String.ofList (unescape body)) := by
  have hempty : (q :: (body ++ [q])).isEmpty = false := rfl
  have hunquote : unquote? (q :: (body ++ [q])) = some body := by simp [unquote?, hq]
  have hupper : upper (q :: (body ++ [q])) = q :: upper (body ++ [q]) := by
    rw [isQuote, Bool.or_eq_true, beq_iff_eq, beq_iff_eq] at hq
    rcases hq with rfl | rfl <;> rfl
  have hword (w : List Char) (hw : ∀ c ∈ w.head?, isQuote c = false) :
      upper (q :: (body ++ [q])) ≠ w := by
    rintro rfl
    rw [hupper] at hw
    exact absurd hq (by simp [hw q rfl])
  simp only [Value.readLiteral, (isTrimmed_quoted hq body).trim_eq, hempty, Bool.false_eq_true,
    ↓reduceIte]
  rw [if_neg (hword "NULL".toList (by decide)), if_neg (hword "TRUE".toList (by decide)),
    if_neg (hword "FALSE".toList (by decide)), hunquote]

theorem readLiteral_text (s : String) : Value.readLiteral (text s).chars = .string s := by
  rw [chars_text, readLiteral_quoted rfl, unescape_escaped, String.ofList_toList]

theorem readLiteral_chars (l : Literal) : Value.readLiteral l.chars = l.value := by
  cases l with
  | null => rfl
  | bool b => cases b <;> rfl
  | whole n => exact readLiteral_intChars n
  | text s => exact readLiteral_text s

theorem readLiterals_joined (items : List Literal) :
    Value.readLiterals (joined (items.map chars)) = .ok (items.map value) := by
  cases items with
  | nil => rfl
  | cons first rest =>
    have hitems : ∀ item ∈ (first :: rest).map chars, IsItem item := by
      intro item hi
      obtain ⟨l, -, rfl⟩ := List.mem_map.mp hi
      exact l.isItem_chars
    have hsplit : splitCommas .filter (joined ((first :: rest).map chars)) =
        .ok ((first :: rest).map chars) := splitCommas_joined (List.cons_ne_nil _ _) hitems .filter
    have hnonempty : (trim (joined ((first :: rest).map chars))).isEmpty = false := by
      rw [List.isEmpty_eq_false_iff]
      intro ht
      have hgap : IsGap first.chars := isGap_of_joined (isGap_of_trim ht)
      exact first.chars_ne_nil (first.isTrimmed_chars.eq_nil_of_isGap hgap)
    have hfilter : ((first :: rest).map chars).filter (!·.isEmpty) = (first :: rest).map chars := by
      rw [List.filter_eq_self]
      intro item hi
      obtain ⟨l, -, rfl⟩ := List.mem_map.mp hi
      simpa using l.chars_ne_nil
    rw [Value.readLiterals, hnonempty, if_neg Bool.false_ne_true, hsplit]
    change Except.ok ((((first :: rest).map chars).filter (!·.isEmpty)).map Value.readLiteral) = _
    rw [hfilter, List.map_map]
    congr 2
    funext l
    exact readLiteral_chars l

end Literal
end TableQuery
