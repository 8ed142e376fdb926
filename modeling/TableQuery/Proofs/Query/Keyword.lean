import TableQuery.Query.Outline
import TableQuery.Proofs.Query.Cuts

/-! # Clause keywords in a text

A keyword spells the name of its clause in letters of either case, with a gap where the
name has a blank. The reader finds exactly the keywords that end a word, and a text
without keywords at its top level is quiet in front of whatever a query goes on with.
-/
namespace TableQuery.Outline
open Text Nesting

/-- A name in letters of either case, with a gap for each of its blanks. -/
inductive Spells : List Char → List Char → Prop
  | nil : Spells [] []
  | letter {x c : Char} {w cs : List Char} (hx : x ≠ ' ') (hc : c.toUpper = x)
      (h : Spells w cs) : Spells (x :: w) (c :: cs)
  | gap {g w cs : List Char} (hn : g ≠ []) (hg : IsGap g) (h : Spells w cs) :
      Spells (' ' :: w) (g ++ cs)

def IsKeyword (clause : Clause) (cs : List Char) : Prop :=
  clause ≠ .query ∧ Spells clause.name.toList cs

/-- A text without a clause keyword that is a word of its own at the top level. -/
def KeywordFree (text : List Char) : Prop :=
  ∀ before keyword after clause, text = before ++ (keyword ++ after) →
    (∀ c ∈ before.getLast?, isBlank c = true) → behind (.outside 0) before = .outside 0 →
    IsKeyword clause keyword → wordEnds after = false

theorem spells_word_iff {w cs : List Char} (hw : ' ' ∉ w) :
    Spells w cs ↔ cs.map Char.toUpper = w := by
  constructor
  · intro h
    induction h with
    | nil => rfl
    | letter hx hc h ih =>
      rw [List.map_cons, hc, ih fun hm => hw (List.mem_cons_of_mem _ hm)]
    | gap hn hg h ih => exact absurd List.mem_cons_self hw
  · rintro rfl
    induction cs with
    | nil => exact .nil
    | cons c cs ih =>
      rw [List.map_cons, List.mem_cons, not_or] at hw
      exact .letter (Ne.symm hw.1) rfl (ih hw.2)

theorem spells_two_words_iff {first second cs : List Char} (hf : ' ' ∉ first)
    (hs : ' ' ∉ second) : Spells (first ++ ' ' :: second) cs ↔
      ∃ a g b, cs = a ++ (g ++ b) ∧ a.map Char.toUpper = first ∧ g ≠ [] ∧ IsGap g ∧
        b.map Char.toUpper = second := by
  induction first generalizing cs with
  | nil =>
    constructor
    · intro h
      cases h with
      | letter hx hc h => exact absurd rfl hx
      | @gap g w b hn hg h => exact ⟨[], g, b, rfl, rfl, hn, hg, (spells_word_iff hs).mp h⟩
    · rintro ⟨a, g, b, rfl, ha, hn, hg, hb⟩
      rw [List.map_eq_nil_iff.mp ha]
      change Spells (' ' :: second) (g ++ b)
      exact Spells.gap hn hg ((spells_word_iff hs).mpr hb)
  | cons x first ih =>
    rw [List.mem_cons, not_or] at hf
    constructor
    · intro h
      cases h with
      | letter hx hc h =>
        obtain ⟨a, g, b, rfl, rfl, hn, hg, hb⟩ := (ih hf.2).mp h
        exact ⟨_ :: a, g, b, rfl, by rw [List.map_cons, hc], hn, hg, hb⟩
      | gap hn hg h => exact absurd rfl hf.1
    · rintro ⟨a, g, b, rfl, ha, hn, hg, hb⟩
      cases a with
      | nil => cases ha
      | cons c a =>
        obtain ⟨rfl, rfl⟩ := List.cons.inj ha
        exact .letter (Ne.symm hf.1) rfl ((ih hf.2).mpr ⟨a, g, b, rfl, rfl, hn, hg, hb⟩)

theorem trimStart_word_append {w b : List Char} (hw : IsCapital w) (hn : w ≠ [])
    (hb : b.map Char.toUpper = w) (rest : List Char) : trimStart (b ++ rest) = b ++ rest := by
  subst hb
  cases b with
  | nil => exact absurd rfl hn
  | cons c b =>
    apply trimStart_of_head
    intro d hd
    cases Option.some.inj hd
    exact not_isBlank_of_isNameChar (isNameChar_of_toUpper (hw _ List.mem_cons_self))

theorem twoWords?_eq_some_iff {first second cs rest : List Char} (hs : IsCapital second)
    (hn : second ≠ []) : twoWords? first second cs = some rest ↔
      ∃ a g b, cs = a ++ (g ++ b) ++ rest ∧ a.map Char.toUpper = first ∧ g ≠ [] ∧ IsGap g ∧
        b.map Char.toUpper = second := by
  constructor
  · intro h
    obtain ⟨r, hr, hr2⟩ := Option.bind_eq_some_iff.mp h
    obtain ⟨t, ht, hw⟩ := Option.bind_eq_some_iff.mp hr2
    obtain ⟨a, rfl, ha⟩ := word?_eq_some_iff.mp hr
    obtain ⟨-, g, hgn, hg, rfl⟩ := blanks?_eq_some ht
    obtain ⟨b, rfl, hb⟩ := word?_eq_some_iff.mp hw
    exact ⟨a, g, b, by simp only [List.append_assoc], ha, hgn, hg, hb⟩
  · rintro ⟨a, g, b, rfl, ha, hgn, hg, hb⟩
    rw [twoWords?, List.append_assoc, word?_append ha, Option.bind_some, List.append_assoc,
      blanks?_gap_append hg hgn, trimStart_word_append hs hn hb, Option.bind_some,
      word?_append hb]

theorem clauseWord?_eq_some_iff {clause : Clause} (hc : clause ≠ .query)
    {cs rest : List Char} : clauseWord? cs clause = some rest ↔
      ∃ keyword, cs = keyword ++ rest ∧ Spells clause.name.toList keyword := by
  have single (w : List Char) (hw : ' ' ∉ w) : word? w cs = some rest ↔
      ∃ keyword, cs = keyword ++ rest ∧ Spells w keyword := by
    rw [word?_eq_some_iff]
    exact exists_congr fun a => and_congr_right fun _ => (spells_word_iff hw).symm
  have double (first second : List Char) (hf : ' ' ∉ first) (hs : ' ' ∉ second)
      (hu : IsCapital second) (hn : second ≠ []) : twoWords? first second cs = some rest ↔
      ∃ keyword, cs = keyword ++ rest ∧ Spells (first ++ ' ' :: second) keyword := by
    rw [twoWords?_eq_some_iff hu hn]
    constructor
    · rintro ⟨a, g, b, h, hr⟩
      exact ⟨_, h, (spells_two_words_iff hf hs).mpr ⟨a, g, b, rfl, hr⟩⟩
    · rintro ⟨keyword, h, hk⟩
      obtain ⟨a, g, b, rfl, hr⟩ := (spells_two_words_iff hf hs).mp hk
      exact ⟨a, g, b, h, hr⟩
  cases clause with
  | query => exact absurd rfl hc
  | select => exact single _ (by decide)
  | source => exact single _ (by decide)
  | filter => exact single _ (by decide)
  | limit => exact single _ (by decide)
  | group => exact double _ _ (by decide) (by decide) (by decide) (by decide)
  | order => exact double _ _ (by decide) (by decide) (by decide) (by decide)

theorem Spells.head {clause : Clause} {keyword : List Char}
    (h : Spells clause.name.toList keyword) :
    ∃ c cs, keyword = c :: cs ∧ clause.name.toList.head? = some c.toUpper := by
  have hn : clause.name.toList ≠ [] ∧ clause.name.toList.head? ≠ some ' ' := by
    cases clause <;> decide
  revert hn
  generalize clause.name.toList = name at h
  intro hn
  cases h with
  | nil => exact absurd rfl hn.1
  | letter hx hc h => exact ⟨_, _, rfl, by rw [hc]; rfl⟩
  | gap _ _ h => exact absurd rfl hn.2

theorem Spells.mem {name keyword : List Char} (h : Spells name keyword)
    (hn : ∀ x ∈ name, x = ' ' ∨ x.isUpper = true) :
    ∀ c ∈ keyword, isNameChar c = true ∨ isBlank c = true := by
  induction h with
  | nil => simp
  | @letter x c w cs hx hc h ih =>
    intro d hd
    rcases List.mem_cons.mp hd with rfl | hd
    · have hu := (hn x List.mem_cons_self).resolve_left hx
      exact Or.inl (isNameChar_of_toUpper (hc ▸ hu))
    · exact ih (fun y hy => hn y (List.mem_cons_of_mem _ hy)) d hd
  | gap hg hb h ih =>
    intro d hd
    rcases List.mem_append.mp hd with hd | hd
    · exact Or.inr (hb d hd)
    · exact ih (fun y hy => hn y (List.mem_cons_of_mem _ hy)) d hd

theorem Spells.last {name keyword : List Char} (h : Spells name keyword)
    (hn : ∀ x ∈ name.getLast?, x.isUpper = true) :
    ∀ c ∈ keyword.getLast?, isNameChar c = true := by
  induction h with
  | nil => simp
  | @letter x c w cs hx hc h ih =>
    cases h with
    | nil =>
      intro d hd
      cases Option.some.inj hd
      exact isNameChar_of_toUpper (hc ▸ hn x rfl)
    | letter => exact ih hn
    | @gap g w cs hg hb h =>
      have hne : g ++ cs ≠ [] := by simp [hg]
      rw [← List.singleton_append, getLast?_of_append hne]
      exact ih hn
  | @gap g w cs hg hb h ih =>
    cases h with
    | nil => exact absurd (hn ' ' rfl) (by decide)
    | letter =>
      rw [getLast?_of_append (by simp)]
      exact ih hn
    | gap hg' =>
      rw [getLast?_of_append (by simp [hg'])]
      exact ih hn

theorem IsKeyword.head {clause : Clause} {keyword : List Char} (h : IsKeyword clause keyword) :
    ∃ c cs, keyword = c :: cs ∧ isNameChar c = true := by
  obtain ⟨c, cs, rfl, hc⟩ := h.2.head
  have hu : ∀ x ∈ clause.name.toList.head?, x.isUpper = true := by cases clause <;> decide
  exact ⟨c, cs, rfl, isNameChar_of_toUpper (hu _ hc)⟩

theorem IsKeyword.mem {clause : Clause} {keyword : List Char} (h : IsKeyword clause keyword) :
    ∀ c ∈ keyword, isNameChar c = true ∨ isBlank c = true :=
  h.2.mem (by cases clause <;> decide)

theorem IsKeyword.last {clause : Clause} {keyword : List Char} (h : IsKeyword clause keyword) :
    ∀ c ∈ keyword.getLast?, isNameChar c = true :=
  h.2.last (by cases clause <;> decide)

theorem IsKeyword.isOrdinary {clause : Clause} {keyword : List Char}
    (h : IsKeyword clause keyword) : ∀ c ∈ keyword, isOrdinary c = true := by
  intro c hc
  rcases h.mem c hc with hc | hc
  · exact isOrdinary_of_isNameChar hc
  · exact isOrdinary_of_isBlank hc

theorem IsKeyword.balanced {clause : Clause} {keyword : List Char} (h : IsKeyword clause keyword) :
    Balanced keyword := balanced_of_ordinary h.isOrdinary

theorem clause_eq_of_head {a b : Clause}
    (h : a.name.toList.head? = b.name.toList.head?) : a = b := by
  cases a <;> cases b <;> first | rfl | exact absurd h (by decide)

/-- The keyword of one clause at the front of a text, with its length. -/
def keywordOf? (cs : List Char) (clause : Clause) : Option (Clause × Nat) :=
  match clauseWord? cs clause with
  | some rest => if wordEnds rest then some (clause, cs.length - rest.length) else none
  | none => none

theorem keywordOf?_eq_some_iff {cs : List Char} {x clause : Clause} {length : Nat}
    (hx : x ≠ .query) : keywordOf? cs x = some (clause, length) ↔
      x = clause ∧ ∃ keyword rest, cs = keyword ++ rest ∧ Spells x.name.toList keyword ∧
        wordEnds rest = true ∧ length = keyword.length := by
  constructor
  · intro h
    unfold keywordOf? at h
    split at h
    · next rest hr =>
      split at h
      · next he =>
        obtain ⟨rfl, rfl⟩ := Prod.mk.inj (Option.some.inj h)
        obtain ⟨keyword, rfl, hk⟩ := (clauseWord?_eq_some_iff hx).mp hr
        exact ⟨rfl, keyword, rest, rfl, hk, he, by simp⟩
      · cases h
    · cases h
  · rintro ⟨rfl, keyword, rest, rfl, hk, he, rfl⟩
    unfold keywordOf?
    rw [(clauseWord?_eq_some_iff hx).mpr ⟨keyword, rfl, hk⟩]
    simp [he]

theorem keyword?_eq_some_iff {cs : List Char} {clause : Clause} {length : Nat} :
    keyword? cs = some (clause, length) ↔ ∃ keyword rest, cs = keyword ++ rest ∧
      IsKeyword clause keyword ∧ wordEnds rest = true ∧ length = keyword.length := by
  have hl : ∀ x, x ∈ [Clause.select, .source, .filter, .group, .order, .limit] ↔ x ≠ .query := by
    intro x
    cases x <;> decide
  have hd : keyword? cs =
    [Clause.select, .source, .filter, .group, .order, .limit].findSome? (keywordOf? cs) := rfl
  rw [hd]
  constructor
  · intro h
    obtain ⟨x, hm, h⟩ := List.exists_of_findSome?_eq_some h
    have hx := (hl x).mp hm
    obtain ⟨rfl, keyword, rest, h1, h2, h3⟩ := (keywordOf?_eq_some_iff hx).mp h
    exact ⟨keyword, rest, h1, ⟨hx, h2⟩, h3⟩
  · rintro ⟨keyword, rest, rfl, ⟨hc, hk⟩, he, rfl⟩
    have hk? : keywordOf? (keyword ++ rest) clause = some (clause, keyword.length) :=
      (keywordOf?_eq_some_iff hc).mpr ⟨rfl, keyword, rest, rfl, hk, he, rfl⟩
    cases hf : [Clause.select, .source, .filter, .group, .order, .limit].findSome?
        (keywordOf? (keyword ++ rest)) with
    | none =>
      rw [List.findSome?_eq_none_iff.mp hf clause ((hl clause).mpr hc)] at hk?
      cases hk?
    | some found =>
      obtain ⟨x, hm, h⟩ := List.exists_of_findSome?_eq_some hf
      obtain ⟨y, k⟩ := found
      have hx := (hl x).mp hm
      obtain ⟨rfl, other, rest', h1, h2, -⟩ := (keywordOf?_eq_some_iff hx).mp h
      obtain ⟨c, w, rfl, hw⟩ := hk.head
      obtain ⟨d, v, rfl, hv⟩ := h2.head
      obtain rfl : d = c := (List.cons.inj h1).1.symm
      obtain rfl : x = clause := clause_eq_of_head (hv.trans hw.symm)
      exact h.symm.trans hk?

/-- A text is a clause's keyword when the reader takes all of it for that keyword. -/
theorem isKeyword_iff {clause : Clause} {keyword : List Char} :
    IsKeyword clause keyword ↔ keyword? keyword = some (clause, keyword.length) := by
  rw [keyword?_eq_some_iff]
  constructor
  · intro h
    exact ⟨keyword, [], (List.append_nil _).symm, h, rfl, rfl⟩
  · rintro ⟨word, rest, hw, h, -, hl⟩
    have hrest : rest = [] := by
      have hlen := congrArg List.length hw
      rw [List.length_append] at hlen
      exact List.eq_nil_of_length_eq_zero (by omega)
    rw [hw, hrest, List.append_nil]
    exact h

instance (clause : Clause) (keyword : List Char) : Decidable (IsKeyword clause keyword) :=
  decidable_of_iff _ isKeyword_iff.symm

/-- A text is free of keywords when the reader finds none at any place where a word may start. -/
theorem keywordFree_iff {text : List Char} : KeywordFree text ↔
    ∀ i < text.length, startBehind true (text.take i) = true →
      behind (.outside 0) (text.take i) = .outside 0 → keyword? (text.drop i) = none := by
  constructor
  · intro h i _ hs hb
    cases hk : keyword? (text.drop i) with
    | none => rfl
    | some found =>
      obtain ⟨keyword, after, hd, hkey, hend, -⟩ := keyword?_eq_some_iff.mp hk
      have hsplit : text = text.take i ++ (keyword ++ after) := by
        rw [← hd, List.take_append_drop]
      rw [h _ _ _ _ hsplit (startBehind_true_iff.mp hs) hb hkey] at hend
      cases hend
  · intro h before keyword after clause hsplit hblank hb hkey
    cases hend : wordEnds after with
    | false => rfl
    | true =>
      obtain ⟨c, cs, hc, -⟩ := hkey.head
      have hs : startBehind true before = true := startBehind_true_iff.mpr hblank
      have hnone := h before.length (by rw [hsplit, hc]; simp) (by rw [hsplit]; simpa using hs)
        (by rw [hsplit]; simpa using hb)
      rw [hsplit, List.drop_left,
        keyword?_eq_some_iff.mpr ⟨keyword, after, rfl, hkey, hend, rfl⟩] at hnone
      cases hnone

instance (text : List Char) : Decidable (KeywordFree text) :=
  decidable_of_iff _ keywordFree_iff.symm

/-- A text that does not end in a blank is found to start with a clause's words only if it does
so on its own, provided that BY is not the first word behind it. -/
theorem clauseWord?_of_append {clause : Clause} {cs after r : List Char}
    (hl : ∀ c ∈ cs.getLast?, isBlank c = false) (he : wordEnds after = true)
    (hb : word? "BY".toList (trimStart after) = none)
    (h : clauseWord? (cs ++ after) clause = some r) :
    ∃ b, r = b ++ after ∧ clauseWord? cs clause = some b := by
  have double {first : List Char} (hf : IsCapital first)
      (h : twoWords? first "BY".toList (cs ++ after) = some r) :
      ∃ b, r = b ++ after ∧ twoWords? first "BY".toList cs = some b := by
    obtain ⟨t, ht, h⟩ := Option.bind_eq_some_iff.mp h
    obtain ⟨b, rfl, hcs⟩ := word?_of_append hf (nameEnds_of_wordEnds he) ht
    obtain ⟨u, hu, hw⟩ := Option.bind_eq_some_iff.mp h
    obtain ⟨rfl, -⟩ := blanks?_eq_some hu
    by_cases hn : b = []
    · subst hn
      rw [List.nil_append, hb] at hw
      cases hw
    · obtain ⟨a, rfl, -⟩ := word?_eq_some_iff.mp hcs
      have hg : ¬IsGap b := not_isGap_of_last hn (by rwa [getLast?_of_append hn] at hl)
      rw [trimStart_append_of_not_gap hg] at hw
      obtain ⟨d, rfl, hd⟩ := word?_of_append (by decide) (nameEnds_of_wordEnds he) hw
      refine ⟨d, rfl, ?_⟩
      rw [twoWords?, hcs, Option.bind_some, blanks?_of_append hn hu, Option.bind_some, hd]
  cases clause with
  | query => cases h
  | select => exact word?_of_append (by decide) (nameEnds_of_wordEnds he) h
  | source => exact word?_of_append (by decide) (nameEnds_of_wordEnds he) h
  | filter => exact word?_of_append (by decide) (nameEnds_of_wordEnds he) h
  | limit => exact word?_of_append (by decide) (nameEnds_of_wordEnds he) h
  | group => exact double (by decide) h
  | order => exact double (by decide) h

/-- A trimmed text without keywords is quiet wherever a clause goes on behind it. -/
theorem quiet_of_keywordFree {text after : List Char} (ht : IsTrimmed text)
    (hf : KeywordFree text) (he : wordEnds after = true)
    (hb : word? "BY".toList (trimStart after) = none) (seen : List Clause) :
    Quiet findKeyword seen after (.outside 0) true text := by
  apply quiet_of_splits
  intro a c b hab hs htop
  rw [findKeyword, Option.map_eq_none_iff]
  cases hk : keyword? (c :: b ++ after) with
  | none => rfl
  | some found =>
    obtain ⟨clause, length⟩ := found
    obtain ⟨keyword, rest, hcs, ⟨hc, hsp⟩, hr, -⟩ := keyword?_eq_some_iff.mp hk
    have hl : ∀ d ∈ (c :: b).getLast?, isBlank d = false := by
      intro d hd
      exact ht.2 d (by rw [hab, getLast?_of_append (by simp)]; exact hd)
    have hw := (clauseWord?_eq_some_iff hc).mpr ⟨keyword, hcs, hsp⟩
    obtain ⟨d, rfl, hd⟩ := clauseWord?_of_append hl he hb hw
    obtain ⟨keyword', hk', hsp'⟩ := (clauseWord?_eq_some_iff hc).mp hd
    have hbehind : behind (.outside 0) a = .outside 0 := by
      rw [isTop, Bool.and_eq_true, beq_iff_eq] at htop
      exact htop.1
    have hend := hf a keyword' d clause (by rw [hab, hk']) (startBehind_true_iff.mp hs) hbehind
      ⟨hc, hsp'⟩
    cases d with
    | nil => cases hend
    | cons x d =>
      rw [wordEnds_append_of_ne_nil (by simp), hend] at hr
      cases hr

theorem findKeyword_blank (seen : List Clause) (c : Char) (cs : List Char)
    (hc : isBlank c = true) : findKeyword seen (c :: cs) = none := by
  rw [findKeyword, Option.map_eq_none_iff]
  cases hk : keyword? (c :: cs) with
  | none => rfl
  | some found =>
    obtain ⟨keyword, rest, hcs, hsp, -⟩ := keyword?_eq_some_iff.mp hk
    obtain ⟨d, w, rfl, hd⟩ := hsp.head
    obtain ⟨rfl, -⟩ := List.cons.inj hcs
    rw [not_isBlank_of_isNameChar hd] at hc
    cases hc

/-- A keyword that is met for the first time ends one piece and starts the next. -/
theorem cutWords_keyword {clause : Clause} {keyword after : List Char} {seen : List Clause}
    (hk : IsKeyword clause keyword) (hs : clause ∉ seen) (he : wordEnds after = true) :
    cutWords findKeyword (.outside 0) true 0 seen (keyword ++ after) =
      ([], (clause, (cutWords findKeyword (.outside 0) false 0 (clause :: seen) after).1) ::
        (cutWords findKeyword (.outside 0) false 0 (clause :: seen) after).2) := by
  obtain ⟨c, cs, hcs, hname⟩ := hk.head
  have hfind : findKeyword seen (keyword ++ after) =
      some (clause :: seen, some clause, keyword.length) := by
    have hfound : keyword? (keyword ++ after) = some (clause, keyword.length) :=
      keyword?_eq_some_iff.mpr ⟨_, _, rfl, hk, he, rfl⟩
    simp [findKeyword, hfound, hs]
  have htop : (outside 0).isTop c = true := by
    simp [isTop, isOrdinary_of_isNameChar hname]
  have hbehind : behind (.outside 0) keyword = .outside 0 :=
    hk.balanced.behind_eq
  have hstart : startBehind true keyword = false := by
    refine startBehind_of_last ?_ (fun d hd => not_isBlank_of_isNameChar (hk.last d hd)) true
    rw [hcs]
    exact List.cons_ne_nil c cs
  rw [hcs] at hfind ⊢
  rw [cutWords_cut htop hfind, ← hcs, hbehind, hstart]

end TableQuery.Outline
