import TableQuery.Proofs.Filter.Appending

/-! # Bounds that are quoted texts

A BETWEEN with two quoted texts is always read as one condition: the quotes hide what the
texts hold from the words of the filter. The reader of the bounds does not look at quotes and
cuts at the first AND between blanks, so the two texts come back exactly where the lower one
holds no such word.
-/
namespace TableQuery
open Text Nesting

namespace Text

/-- Whether a text starts with characters that pass some tests in turn. -/
def passesInTurn : List (Char → Bool) → List Char → Bool
  | [], _ => true
  | _ :: _, [] => false
  | test :: tests, c :: cs => test c && passesInTurn tests cs

/-- Whether a character is a given capital letter or its small letter. -/
def isLetter (capital c : Char) : Bool := c.toUpper == capital

/-- A blank, the word AND in letters of either case, and a blank. -/
def spacedAnd : List (Char → Bool) :=
  [isBlank, isLetter 'A', isLetter 'N', isLetter 'D', isBlank]

/-- Somewhere in a text the word AND stands between two blanks. -/
def HoldsAnd (cs : List Char) : Prop := ∃ b ∈ cs.tails, passesInTurn spacedAnd b = true

instance (cs : List Char) : Decidable (HoldsAnd cs) :=
  inferInstanceAs (Decidable (∃ b ∈ cs.tails, _))

theorem holdsAnd_nil : ¬HoldsAnd [] := by decide

theorem holdsAnd_cons {c : Char} {cs : List Char} :
    HoldsAnd (c :: cs) ↔ passesInTurn spacedAnd (c :: cs) = true ∨ HoldsAnd cs := by
  simp [HoldsAnd]

theorem passesInTurn_spacedAnd {cs : List Char} : passesInTurn spacedAnd cs = true ↔
    ∃ x word y rest, cs = x :: (word ++ y :: rest) ∧ isBlank x = true ∧
      word.map Char.toUpper = "AND".toList ∧ isBlank y = true := by
  constructor
  · intro h
    rcases cs with _ | ⟨x, _ | ⟨a, _ | ⟨n, _ | ⟨d, _ | ⟨y, rest⟩⟩⟩⟩⟩
    case cons.cons.cons.cons.cons =>
      simp only [spacedAnd, passesInTurn, isLetter, Bool.and_eq_true, beq_iff_eq] at h
      obtain ⟨hx, ha, hn, hd, hy, -⟩ := h
      exact ⟨x, [a, n, d], y, rest, rfl, hx, by simp [ha, hn, hd], hy⟩
    all_goals simp [spacedAnd, passesInTurn] at h
  · rintro ⟨x, word, y, rest, rfl, hx, hw, hy⟩
    replace hw : word.map Char.toUpper = ['A', 'N', 'D'] := hw
    obtain ⟨a, word, rfl, ha, hw⟩ := List.map_eq_cons_iff.mp hw
    obtain ⟨n, word, rfl, hn, hw⟩ := List.map_eq_cons_iff.mp hw
    obtain ⟨d, word, rfl, hd, hw⟩ := List.map_eq_cons_iff.mp hw
    obtain rfl := List.map_eq_nil_iff.mp hw
    simp [spacedAnd, passesInTurn, isLetter, hx, ha, hn, hd, hy]

/-- Characters that are not doubled are found in an escaped text where they were before. -/
theorem passesInTurn_escaped {tests : List (Char → Bool)}
    (h : ∀ test ∈ tests, ∀ c, isDoubled c = true → test c = false) (cs : List Char) :
    passesInTurn tests (escaped cs) = passesInTurn tests cs := by
  induction tests generalizing cs with
  | nil => rfl
  | cons test tests ih =>
    have hrest := ih fun t ht => h t (List.mem_cons_of_mem _ ht)
    cases cs with
    | nil => rfl
    | cons c cs =>
      have hcons : escaped (c :: cs) = (if isDoubled c then [c, c] else [c]) ++ escaped cs := rfl
      rw [hcons]
      cases hc : isDoubled c with
      | true => simp [passesInTurn, h test List.mem_cons_self c hc]
      | false => simp [passesInTurn, hrest]

theorem spacedAnd_of_isDoubled :
    ∀ test ∈ spacedAnd, ∀ c, isDoubled c = true → test c = false := by
  intro test ht c hc
  rw [isDoubled, isQuote, Bool.or_eq_true, Bool.or_eq_true, beq_iff_eq, beq_iff_eq, beq_iff_eq]
    at hc
  revert test
  rcases hc with (rfl | rfl) | rfl <;> decide

theorem holdsAnd_escaped (cs : List Char) : HoldsAnd (escaped cs) ↔ HoldsAnd cs := by
  induction cs with
  | nil => exact Iff.rfl
  | cons c cs ih =>
    have hcons : escaped (c :: cs) = (if isDoubled c then [c, c] else [c]) ++ escaped cs := rfl
    have hsame := passesInTurn_escaped spacedAnd_of_isDoubled (c :: cs)
    rw [hcons] at hsame ⊢
    cases hc : isDoubled c with
    | true =>
      have hnot (b : List Char) : passesInTurn spacedAnd (c :: b) = false := by
        have hblank := spacedAnd_of_isDoubled isBlank List.mem_cons_self c hc
        simp [spacedAnd, passesInTurn, hblank]
      simp [holdsAnd_cons, hnot, ih]
    | false =>
      rw [hc] at hsame
      simp only [Bool.false_eq_true, ↓reduceIte, List.singleton_append] at hsame ⊢
      rw [holdsAnd_cons, holdsAnd_cons, hsame, ih]

def countD (cs : List Char) : Nat := cs.countP (isLetter 'D')

theorem countD_append (a b : List Char) : countD (a ++ b) = countD a + countD b :=
  List.countP_append

theorem countD_cons (c : Char) (cs : List Char) :
    countD (c :: cs) = countD cs + if isLetter 'D' c then 1 else 0 := List.countP_cons

theorem countD_gap {g : List Char} (hg : IsGap g) : countD g = 0 := by
  rw [countD, List.countP_eq_zero]
  intro c hc hd
  have hupper := toUpper_not_isUpper_of_isBlank (hg c hc)
  rw [beq_iff_eq.mp hd] at hupper
  cases hupper

theorem countD_trim (cs : List Char) : countD (trim cs) = countD cs := by
  obtain ⟨g, h, hg, hh, -, hcs⟩ := exists_trim cs
  calc countD (trim cs) = countD (g ++ trim cs ++ h) := by
        rw [countD_append, countD_append, countD_gap hg, countD_gap hh, Nat.zero_add, Nat.add_zero]
    _ = countD cs := by rw [← hcs]

theorem countD_undouble {q : Char} (hq : isLetter 'D' q = false) (cs : List Char) :
    countD (undouble q cs) = countD cs := by
  fun_induction undouble q cs with
  | case1 => rfl
  | case2 c => rfl
  | case3 c d rest h ih =>
    obtain ⟨rfl, rfl⟩ := h
    simp [countD_cons, ih, hq]
  | case4 c d rest h ih => rw [countD_cons, ih, ← countD_cons]

theorem countD_unbackslash (cs : List Char) : countD (unbackslash cs) = countD cs := by
  fun_induction unbackslash cs with
  | case1 => rfl
  | case2 c => rfl
  | case3 c d rest e h ih =>
    split at h
    · next hc =>
      have hletters : isLetter 'D' d = false ∧ isLetter 'D' e = false := by
        unfold escapedLetter? at h
        split at h <;> cases h <;> decide
      subst hc
      simp [countD_cons, ih, hletters, (by decide : isLetter 'D' '\\' = false)]
    · cases h
  | case4 c d rest h ih => rw [countD_cons, ih, ← countD_cons]

theorem countD_unescape (cs : List Char) : countD (unescape cs) = countD cs := by
  rw [unescape, countD_unbackslash, countD_undouble (by decide), countD_undouble (by decide)]

theorem countD_unquote? {cs inner : List Char} (h : unquote? cs = some inner) :
    countD inner = countD cs := by
  cases cs with
  | nil => cases h
  | cons q rest =>
    simp only [unquote?] at h
    split at h
    · next hq =>
      rw [Bool.and_eq_true, beq_iff_eq] at hq
      obtain ⟨hquote, hlast⟩ := hq
      have hd : isLetter 'D' q = false := by
        rw [isQuote, Bool.or_eq_true, beq_iff_eq, beq_iff_eq] at hquote
        rcases hquote with rfl | rfl <;> decide
      have hrest : rest = rest.dropLast ++ [q] :=
        (List.dropLast_append_getLast? q hlast).symm
      cases h
      rw [countD_cons, hd]
      conv_rhs => rw [hrest]
      simp [countD_append, countD_cons, hd]
      rfl
    · cases h

theorem countD_readLiteral {cs : List Char} {s : String}
    (h : Value.readLiteral cs = .string s) : countD s.toList = countD cs := by
  unfold Value.readLiteral at h
  dsimp only at h
  split at h
  · next hempty =>
    cases h
    rw [← countD_trim cs, List.isEmpty_iff.mp hempty]
    rfl
  split at h
  · cases h
  split at h
  · cases h
  split at h
  · cases h
  split at h
  · next inner hinner =>
    cases h
    rw [String.toList_ofList, countD_unescape, countD_unquote? hinner, countD_trim]
  · next hinner =>
    cases hnumber : Value.readNumber? (trim cs) with
    | none =>
      rw [hnumber] at h
      cases h
      rw [String.toList_ofList, countD_trim]
    | some v =>
      rw [hnumber] at h
      obtain ⟨x, -, hv⟩ := Option.map_eq_some_iff.mp hnumber
      simp only [Option.getD_some] at h
      rw [h] at hv
      split at hv <;> cases hv

end Text

namespace Condition

theorem afterAnd?_eq_some {cs high : List Char} (h : afterAnd? cs = some high) :
    ∃ g word g', cs = (g ++ word ++ g') ++ high ∧ g ≠ [] ∧ IsGap g ∧
      word.map Char.toUpper = "AND".toList ∧ g' ≠ [] ∧ IsGap g' := by
  unfold afterAnd? at h
  split at h
  · next c rest hand =>
    cases h
    obtain ⟨behind, hbehind, hblanks⟩ := Option.bind_eq_some_iff.mp hand
    obtain ⟨front, hfront, hword⟩ := Option.bind_eq_some_iff.mp hbehind
    obtain ⟨-, g, hgn, hg, rfl⟩ := blanks?_eq_some hfront
    obtain ⟨word, rfl, hw⟩ := word?_eq_some_iff.mp hword
    obtain ⟨-, g', hgn', hg', rfl⟩ := blanks?_eq_some hblanks
    exact ⟨g, word, g', by simp only [List.append_assoc], hgn, hg, hw, hgn', hg'⟩
  · cases h

theorem holdsAnd_of_afterAnd? {a rest high : List Char}
    (h : afterAnd? (a ++ '\'' :: rest) = some high) :
    HoldsAnd a ∧ ∃ r, high = r ++ '\'' :: rest := by
  obtain ⟨g, word, g', hsplit, hgn, hg, hw, hgn', hg'⟩ := afterAnd?_eq_some h
  have hquote : '\'' ∉ g ++ word ++ g' := by
    have hblank : isBlank '\'' = false := by decide
    have hgap {g : List Char} (hg : IsGap g) : '\'' ∉ g := by
      intro hm
      rw [hg _ hm] at hblank
      cases hblank
    have hword : '\'' ∉ word := by
      intro hm
      have hupper := List.mem_map_of_mem (f := Char.toUpper) hm
      rw [hw] at hupper
      revert hupper
      decide
    simp only [List.mem_append, not_or]
    exact ⟨⟨hgap hg, hword⟩, hgap hg'⟩
  obtain ⟨d, rfl, hd⟩ : ∃ d, a = (g ++ word ++ g') ++ d ∧ high = d ++ '\'' :: rest := by
    rcases List.append_eq_append_iff.mp hsplit with ⟨d, hp, hrest⟩ | ⟨d, ha, hhigh⟩
    · cases d with
      | nil => exact ⟨[], by simpa using hp.symm, hrest.symm⟩
      | cons c d =>
        cases (List.cons.inj hrest).1
        exact absurd (hp ▸ List.mem_append_right a List.mem_cons_self) hquote
    · exact ⟨d, ha, hhigh⟩
  refine ⟨?_, d, hd⟩
  obtain ⟨front, x, rfl⟩ : ∃ front x, g = front ++ [x] :=
    ⟨_, _, (List.dropLast_concat_getLast hgn).symm⟩
  obtain ⟨y, back, rfl⟩ := List.exists_cons_of_ne_nil hgn'
  refine ⟨x :: (word ++ y :: (back ++ d)), ?_, passesInTurn_spacedAnd.mpr
    ⟨x, word, y, back ++ d, rfl, hg x (by simp), hw, hg' y List.mem_cons_self⟩⟩
  rw [List.mem_tails]
  exact ⟨front, by simp⟩

theorem afterAnd?_isSome {cs rest : List Char} (h : passesInTurn spacedAnd cs = true) :
    (afterAnd? (cs ++ '\'' :: rest)).isSome = true := by
  obtain ⟨x, word, y, behind, rfl, hx, hw, hy⟩ := passesInTurn_spacedAnd.mp h
  have hstart : trimStart (word ++ y :: (behind ++ '\'' :: rest)) =
      word ++ y :: (behind ++ '\'' :: rest) := by
    cases word with
    | nil => cases hw
    | cons a word =>
      apply trimStart_of_head
      intro c hc
      obtain rfl : a = c := Option.some.inj hc
      have ha : a.toUpper = 'A' := (List.cons.inj hw).1
      exact not_isBlank_of_isNameChar (isNameChar_of_toUpper (by rw [ha]; decide))
  have hne : trimStart (behind ++ '\'' :: rest) ≠ [] := by
    intro hnil
    have hgap : IsGap (trimStart (behind ++ '\'' :: rest)) := hnil ▸ isGap_nil
    exact absurd (isGap_of_trimStart hgap '\'' (by simp)) (by decide)
  obtain ⟨c, high, hhigh⟩ := List.exists_cons_of_ne_nil hne
  have hfound : (followedBy? "AND".toList
      (x :: (word ++ y :: behind) ++ '\'' :: rest)).bind blanks? = some (c :: high) := by
    have hword : word? "AND".toList (word ++ y :: (behind ++ '\'' :: rest)) =
        some (y :: (behind ++ '\'' :: rest)) := word?_append hw _
    simp only [followedBy?, List.cons_append, List.append_assoc, blanks?, hx, ↓reduceIte, hstart,
      Option.bind_some, hword, hy, hhigh]
  rw [afterAnd?, hfound]
  rfl

/-- Two bounds are cut inside the first one where that holds an AND, and otherwise at the AND
behind its closing quote. -/
theorem cutAtAnd?_quoted {rest high : List Char} (hr : afterAnd? rest = some high)
    (c : Char) (a : List Char) :
    ¬HoldsAnd a ∧ cutAtAnd? (c :: (a ++ '\'' :: rest)) = some (c :: (a ++ ['\'']), high) ∨
      HoldsAnd a ∧ ∃ low r, cutAtAnd? (c :: (a ++ '\'' :: rest)) =
        some (low, r ++ '\'' :: rest) := by
  induction a generalizing c with
  | nil =>
    refine Or.inl ⟨holdsAnd_nil, ?_⟩
    rw [List.nil_append, cutAtAnd?, afterAnd?_of_head (by decide), cutAtAnd?, hr]
    rfl
  | cons d a ih =>
    cases hd : afterAnd? (d :: a ++ '\'' :: rest) with
    | some found =>
      obtain ⟨hholds, r, rfl⟩ := holdsAnd_of_afterAnd? hd
      refine Or.inr ⟨hholds, [c], r, ?_⟩
      rw [cutAtAnd?, hd]
    | none =>
      have hstart : passesInTurn spacedAnd (d :: a) = false := by
        rw [← Bool.not_eq_true]
        intro hs
        have hsome : (afterAnd? (d :: a ++ '\'' :: rest)).isSome = true := afterAnd?_isSome hs
        rw [hd] at hsome
        cases hsome
      have hstep : HoldsAnd (d :: a) ↔ HoldsAnd a := by
        rw [holdsAnd_cons, hstart]
        exact or_iff_right Bool.false_ne_true
      rw [cutAtAnd?, hd, hstep]
      rcases ih d with ⟨hnot, hcut⟩ | ⟨hholds, low, r, hcut⟩
      · refine Or.inl ⟨hnot, ?_⟩
        rw [List.cons_append, hcut]
        rfl
      · refine Or.inr ⟨hholds, c :: low, r, ?_⟩
        rw [List.cons_append, hcut]
        rfl

end Condition

namespace Filter
open Condition

/-- What stands behind BETWEEN and a blank where both bounds are quoted. -/
def quotedBounds (low high : String) : List Char :=
  (Literal.text low).chars ++ (" AND ".toList ++ (Literal.text high).chars)

/-- A condition that compares a field with two quoted bounds. -/
def betweenQuoted (field : List Char) (negated : Bool) (low high : String) : List Char :=
  field ++ ' ' :: (withNot negated "BETWEEN".toList ++ ' ' :: quotedBounds low high)

/-- Bounds are found in any case; they are the two texts where the lower one holds no AND, and
otherwise the upper one has a piece of the lower one in front. -/
theorem bounds?_quoted (low high : String) :
    ∃ a b, bounds? (' ' :: quotedBounds low high) = some (a, b) ∧
      (¬HoldsAnd low.toList ∧ a = (Literal.text low).chars ∧ b = (Literal.text high).chars ∨
        HoldsAnd low.toList ∧
          ∃ r, b = r ++ '\'' :: (" AND ".toList ++ (Literal.text high).chars)) := by
  have hhigh : afterAnd? (" AND ".toList ++ (Literal.text high).chars) =
      some (Literal.text high).chars :=
    afterAnd?_and (Literal.chars_ne_nil _) (Literal.isTrimmed_chars _).1
  have hquoted : quotedBounds low high = '\'' :: (escaped low.toList ++
      '\'' :: (" AND ".toList ++ (Literal.text high).chars)) := by
    simp [quotedBounds]
  have hinner : blanks? (' ' :: quotedBounds low high) = some (quotedBounds low high) := by
    rw [hquoted]
    rfl
  rw [bounds?, hinner, Option.bind_some, hquoted, ← holdsAnd_escaped low.toList]
  rcases cutAtAnd?_quoted hhigh '\'' (escaped low.toList) with ⟨hnot, hcut⟩ | ⟨hholds, a, r, hcut⟩
  · exact ⟨(Literal.text low).chars, (Literal.text high).chars, by rw [hcut]; rfl,
      Or.inl ⟨hnot, rfl, rfl⟩⟩
  · exact ⟨_, _, by rw [hcut], Or.inr ⟨hholds, r, rfl⟩⟩

/-- A text that ends in the word AND and another quoted text is not read as that other text. -/
theorem readLiteral_ne (r : List Char) (high : String) :
    Value.readLiteral (r ++ '\'' :: (" AND ".toList ++ (Literal.text high).chars)) ≠
      .string high := by
  intro h
  have hown : countD high.toList = countD (Literal.text high).chars :=
    countD_readLiteral (Literal.readLiteral_text high)
  have hand : countD ('\'' :: " AND ".toList) = 1 := by decide
  have hcount := countD_readLiteral h
  rw [← List.cons_append, countD_append, countD_append, hand] at hcount
  omega

/-- A BETWEEN with two quoted bounds is one condition, whatever the bounds hold. -/
theorem pieces_betweenQuoted {field : List Char} (hf : isFieldPath field = true)
    (hn : ∀ entry ∈ connectives, field.map Char.toUpper ≠ entry.1.toList) (negated : Bool)
    (low high : String) :
    pieces (betweenQuoted field negated low high) = (betweenQuoted field negated low high, []) := by
  have hfield : Passes findConnective false false
      (' ' :: (withNot negated "BETWEEN".toList ++ ' ' :: quotedBounds low high ++ [])) true field :=
    passes_field hf hn rfl false true
  have hbetween : Passes findConnective false false [] true
      (withNot negated ("BETWEEN".toList ++ ' ' :: quotedBounds low high)) :=
    passes_withNot negated (passes_between (.text low) (.text high) rfl)
  have hword : withNot negated ("BETWEEN".toList ++ ' ' :: quotedBounds low high) =
      withNot negated "BETWEEN".toList ++ ' ' :: quotedBounds low high := by
    cases negated <;> rfl
  rw [hword] at hbetween
  have hwhole : Passes findConnective false false [] true (betweenQuoted field negated low high) :=
    hfield.append (passes_spaced hbetween _)
  rw [Passes, List.append_nil] at hwhole
  rw [pieces, hwhole]
  simp [cutWords]

theorem balanced_betweenQuoted {field : List Char} (hf : isFieldPath field = true)
    (negated : Bool) (low high : String) : Balanced (betweenQuoted field negated low high) := by
  have hblank : Balanced [' '] := balanced_gap isGap_space
  have hword : Balanced (withNot negated "BETWEEN".toList) :=
    balanced_of_ordinary (WrittenTest.withNot_ordinary negated (by decide))
  have hbounds : Balanced (quotedBounds low high) :=
    (Literal.isItem_chars (.text low)).balanced.append
      ((by decide : Balanced " AND ".toList).append (Literal.isItem_chars (.text high)).balanced)
  exact (balanced_of_isFieldPath hf).append (hblank.append (hword.append (hblank.append hbounds)))

theorem isTrimmed_betweenQuoted {field : List Char} (hf : isFieldPath field = true)
    (negated : Bool) (low high : String) : IsTrimmed (betweenQuoted field negated low high) := by
  have hne := Literal.chars_ne_nil (.text high)
  have hlast : betweenQuoted field negated low high =
      field ++ (' ' :: (withNot negated "BETWEEN".toList ++ ' ' :: ((Literal.text low).chars ++
        " AND ".toList)) ++ (Literal.text high).chars) := by
    simp [betweenQuoted, quotedBounds]
  rw [hlast]
  refine (isTrimmed_of_isFieldPath hf).append (ne_nil_of_isFieldPath hf) (by simp) ?_
  rw [getLast?_of_append hne]
  exact (Literal.isTrimmed_chars (.text high)).2

/-- Between two quoted bounds a condition on the field is read, with the literals of the texts at
which the bounds are cut. -/
theorem read_betweenQuoted {field : List Char} (hf : isFieldPath field = true) (negated : Bool)
    {low high : String} {a b : List Char}
    (hb : bounds? (' ' :: quotedBounds low high) = some (a, b)) :
    Condition.read (betweenQuoted field negated low high) = .ok ⟨String.ofList field, .between,
      .list [Value.readLiteral a, Value.readLiteral b], negated⟩ := by
  have hempty : (betweenQuoted field negated low high).isEmpty = false := by simp [betweenQuoted]
  have hworded : readWorded? (betweenQuoted field negated low high) =
      some (.ok ⟨String.ofList field, .between,
        .list [Value.readLiteral a, Value.readLiteral b], negated⟩) := by
    have hp := leadingPath?_spaced hf
      (withNot negated "BETWEEN".toList ++ ' ' :: quotedBounds low high)
    unfold betweenQuoted
    simp only [readWorded?, hp, WrittenTest.nullTest?_between, WrittenTest.notWord?_between,
      Option.bind_some, hb, Option.map_some]
  rw [Condition.read]
  simp only [(isTrimmed_betweenQuoted hf negated low high).trim_eq, hempty, Bool.false_eq_true,
    ↓reduceIte, hworded]
  rfl

section
variable {field : List Char} (hf : isFieldPath field = true)
  (hn : ∀ entry ∈ connectives, field.map Char.toUpper ≠ entry.1.toList)
include hf hn

theorem parse_of_bounds (negated : Bool) {low high : String} {a b : List Char}
    (hb : bounds? (' ' :: quotedBounds low high) = some (a, b)) :
    parse (betweenQuoted field negated low high) = .ok (.chain ⟨String.ofList field, .between,
      .list [Value.readLiteral a, Value.readLiteral b], negated⟩ []) := by
  have htrim := (isTrimmed_betweenQuoted hf negated low high).trim_eq
  rw [parse_eq_ok_iff, read_eq_ok_iff, htrim, pieces_betweenQuoted hf hn]
  refine ⟨by simp [betweenQuoted], balanced_betweenQuoted hf negated low high, _, [], ?_, rfl, rfl⟩
  rw [htrim]
  exact read_betweenQuoted hf negated hb

/-- The condition of a BETWEEN with two quoted bounds has the texts as its bounds exactly where
the lower one holds no AND between blanks. -/
theorem parse_betweenQuoted (negated : Bool) (low high : String) :
    ∃ a b, parse (betweenQuoted field negated low high) =
        .ok (.chain ⟨String.ofList field, .between, .list [a, b], negated⟩ []) ∧
      (a = .string low ∧ b = .string high ↔ ¬HoldsAnd low.toList) := by
  obtain ⟨a, b, hbounds, hcases⟩ := bounds?_quoted low high
  refine ⟨_, _, parse_of_bounds hf hn negated hbounds, ?_⟩
  rcases hcases with ⟨hnot, rfl, rfl⟩ | ⟨hholds, r, rfl⟩
  · rw [Literal.readLiteral_text, Literal.readLiteral_text]
    exact iff_of_true ⟨rfl, rfl⟩ hnot
  · exact iff_of_false (fun h => readLiteral_ne r high h.2) (fun hnot => hnot hholds)

end

/-- Quotes, backslashes and words that are no AND of their own move no bound. -/
theorem parse_betweenQuoted_lookalikes :
    isFieldPath "a.not".toList = true ∧
    (∀ entry ∈ connectives, "a.not".toList.map Char.toUpper ≠ entry.1.toList) ∧
    ¬HoldsAnd "it's 'AND' \\n BETWEEN (AND".toList ∧
    ∃ a b, parse (betweenQuoted "a.not".toList true "it's 'AND' \\n BETWEEN (AND" "x AND y\n") =
        .ok (.chain ⟨"a.not", .between, .list [a, b], true⟩ []) ∧
      (a = .string "it's 'AND' \\n BETWEEN (AND" ∧ b = .string "x AND y\n" ↔
        ¬HoldsAnd "it's 'AND' \\n BETWEEN (AND".toList) :=
  ⟨by decide, by decide, by decide, parse_betweenQuoted (by decide) (by decide) true _ _⟩

/-- The reader of the bounds takes an AND in quotes for the one between the bounds. -/
theorem not_parse_betweenQuoted : ¬ ∀ (field : List Char) (negated : Bool) (low high : String),
    isFieldPath field = true → field.map Char.toUpper ∉ filterWords →
      parse (betweenQuoted field negated low high) = .ok (.chain ⟨String.ofList field, .between,
        .list [.string low, .string high], negated⟩ []) := by
  intro h
  have hclaimed := h ['x'] false "a AND b" "c" (by decide) (by decide)
  obtain ⟨a, b, hbounds, hcases⟩ := bounds?_quoted "a AND b" "c"
  obtain ⟨-, r, rfl⟩ := hcases.resolve_left fun hcase => absurd hcase.1 (by decide)
  rw [parse_of_bounds (by decide) (by decide) false hbounds] at hclaimed
  have hhigh : Value.readLiteral (r ++ '\'' :: (" AND ".toList ++ (Literal.text "c").chars)) =
      .string "c" := by
    injection hclaimed with hfilter
    injection hfilter with hcondition
    injection hcondition with _ _ hvalue
    injection hvalue with hitems
    exact (List.cons.inj (List.cons.inj hitems).2).1
  exact readLiteral_ne r "c" hhigh

end Filter
end TableQuery
