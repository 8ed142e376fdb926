import TableQuery.Proofs.Query.Keyword

/-! # Queries composed of clauses

A written query is a list of clauses, each a keyword, a text and the gaps behind the
two. Where every text is trimmed, balanced and free of keywords, the outline of the
whole text holds exactly the texts of its clauses, whatever gaps and semicolons stand
at its end.
-/
namespace TableQuery.Outline
open Text Nesting

/-- A clause as it is written, with the gaps behind its keyword and behind its text. -/
structure WrittenClause where
  keyword : List Char
  between : List Char
  text : List Char
  trail : List Char

namespace WrittenClause

def content (w : WrittenClause) : List Char := w.between ++ (w.text ++ w.trail)

def chars (w : WrittenClause) : List Char := w.keyword ++ w.content

structure Fits (clause : Clause) (w : WrittenClause) : Prop where
  keyword : IsKeyword clause w.keyword
  between : IsGap w.between
  trail : IsGap w.trail
  apart : w.between = [] → w.text = []
  trimmed : IsTrimmed w.text
  balanced : Balanced w.text
  free : KeywordFree w.text

theorem fits_iff {clause : Clause} {w : WrittenClause} : w.Fits clause ↔
    (IsKeyword clause w.keyword ∧ IsGap w.between ∧ IsGap w.trail) ∧
      (w.between = [] → w.text = []) ∧ IsTrimmed w.text ∧ Balanced w.text ∧ KeywordFree w.text :=
  ⟨fun h => ⟨⟨h.keyword, h.between, h.trail⟩, h.apart, h.trimmed, h.balanced, h.free⟩,
    fun ⟨⟨hk, hb, ht⟩, ha, htr, hbal, hf⟩ => ⟨hk, hb, ht, ha, htr, hbal, hf⟩⟩

instance (clause : Clause) (w : WrittenClause) : Decidable (w.Fits clause) :=
  decidable_of_iff _ fits_iff.symm

def tidy (w : WrittenClause) : WrittenClause :=
  { w with between := if w.text = [] then [] else w.between, trail := [] }

variable {clause : Clause} {w : WrittenClause}

theorem Fits.tidy (h : w.Fits clause) : w.tidy.Fits clause where
  keyword := h.keyword
  between := by
    unfold WrittenClause.tidy
    split
    · exact isGap_nil
    · exact h.between
  trail := isGap_nil
  apart := by
    intro hb
    by_cases hn : w.text = []
    · exact hn
    · exact h.apart ((if_neg hn).symm.trans hb)
  trimmed := h.trimmed
  balanced := h.balanced
  free := h.free

theorem Fits.chars_eq_tidy (h : w.Fits clause) :
    ∃ rest, IsGap rest ∧ w.chars = w.tidy.chars ++ rest := by
  by_cases hn : w.text = []
  · refine ⟨w.between ++ w.trail, isGap_append.mpr ⟨h.between, h.trail⟩, ?_⟩
    simp [chars, content, WrittenClause.tidy, hn]
  · exact ⟨w.trail, h.trail, by simp [chars, content, WrittenClause.tidy, hn]⟩

/-- A tidy clause ends in the last character of its text or, without one, in a letter. -/
theorem Fits.tidy_last (h : w.Fits clause) (hs : w.text.getLast? ≠ some ';') :
    ∀ c ∈ w.tidy.chars.getLast?, isBlank c = false ∧ c ≠ ';' := by
  intro c hc
  by_cases hn : w.text = []
  · have hk : w.tidy.chars = w.keyword := by simp [chars, content, WrittenClause.tidy, hn]
    rw [hk] at hc
    have hl := h.keyword.last c hc
    refine ⟨not_isBlank_of_isNameChar hl, ?_⟩
    rintro rfl
    exact absurd hl (by decide)
  · have hk : w.tidy.chars = (w.keyword ++ w.between) ++ w.text := by
      simp [chars, content, WrittenClause.tidy, hn]
    rw [hk, getLast?_of_append hn] at hc
    refine ⟨h.trimmed.2 c hc, ?_⟩
    rintro rfl
    exact hs hc

theorem Fits.balanced_content (h : w.Fits clause) : Balanced w.content :=
  (balanced_gap h.between).append (h.balanced.append (balanced_gap h.trail))

theorem Fits.trim_content (h : w.Fits clause) : trim w.content = w.text := by
  rw [content, ← List.append_assoc]
  exact trim_between h.between h.trimmed h.trail

/-- What may follow a clause: nothing, or behind blanks a word other than BY. -/
def Continues (w : WrittenClause) (after : List Char) : Prop :=
  after = [] ∨ w.trail ≠ [] ∧ word? "BY".toList (trimStart after) = none

theorem Fits.wordEnds_trail (h : w.Fits clause) {after : List Char} (ha : w.Continues after) :
    wordEnds (w.trail ++ after) = true := by
  by_cases ht : w.trail = []
  · rcases ha with rfl | ⟨hn, -⟩
    · rw [ht]
      rfl
    · exact absurd ht hn
  · exact wordEnds_gap_append h.trail ht after

theorem Fits.wordEnds_content (h : w.Fits clause) {after : List Char} (ha : w.Continues after) :
    wordEnds (w.content ++ after) = true := by
  by_cases hb : w.between = []
  · simpa [content, hb, h.apart hb] using h.wordEnds_trail ha
  · rw [content, List.append_assoc]
    exact wordEnds_gap_append h.between hb _

theorem Fits.quiet (h : w.Fits clause) {after : List Char} (ha : w.Continues after)
    (seen : List Clause) {start : Bool} :
    Quiet findKeyword seen after (.outside 0) start w.content := by
  have gap {g : List Char} (hg : IsGap g) {after n start} :
      Quiet findKeyword seen after n start g := quiet_gap (findKeyword_blank seen) hg
  have hby : word? "BY".toList (trimStart (w.trail ++ after)) = none := by
    rw [trimStart_gap_append h.trail]
    rcases ha with rfl | ⟨-, hb⟩
    · rfl
    · exact hb
  rw [content, quiet_append, quiet_append,
    (balanced_gap h.between).behind_eq,
    h.balanced.behind_eq]
  refine ⟨gap h.between, ?_, gap h.trail⟩
  by_cases ht : w.text = []
  · rw [ht]
    trivial
  · rw [startBehind_gap h.between (fun hb => ht (h.apart hb))]
    exact quiet_of_keywordFree h.trimmed h.free (h.wordEnds_trail ha) hby seen

theorem Fits.cutWords_chars (h : w.Fits clause) {after : List Char} (ha : w.Continues after)
    {seen : List Clause} (hs : clause ∉ seen) :
    cutWords findKeyword (.outside 0) true 0 seen (w.chars ++ after) =
      ([], (clause, w.content ++ (cutWords findKeyword (.outside 0) true 0 (clause :: seen)
          after).1) ::
        (cutWords findKeyword (.outside 0) true 0 (clause :: seen) after).2) := by
  have hnext : cutWords findKeyword (.outside 0) (startBehind false w.content) 0 (clause :: seen)
      after = cutWords findKeyword (.outside 0) true 0 (clause :: seen) after := by
    rcases ha with rfl | ⟨ht, -⟩
    · rfl
    · rw [content, startBehind_append, startBehind_append, startBehind_gap h.trail ht]
  rw [chars, List.append_assoc, cutWords_keyword h.keyword hs (h.wordEnds_content ha),
    cutWords_quiet (h.quiet ha (clause :: seen)),
    h.balanced_content.behind_eq, hnext]

end WrittenClause

abbrev Parts := List (Clause × WrittenClause)

namespace Parts

def chars (parts : Parts) : List Char := parts.flatMap fun part => part.2.chars

def texts (parts : Parts) : List (Clause × List Char) := parts.map fun part => (part.1, part.2.text)

/-- Clauses that fit, with a gap between any two of them. -/
structure Fit (parts : Parts) : Prop where
  fits : ∀ part ∈ parts, part.2.Fits part.1
  apart : ∀ part ∈ parts.dropLast, part.2.trail ≠ []

variable {parts : Parts}

theorem chars_cons (part : Clause × WrittenClause) (parts : Parts) :
    chars (part :: parts) = part.2.chars ++ chars parts := List.flatMap_cons

theorem Fit.tail {part : Clause × WrittenClause} (h : Fit (part :: parts)) : Fit parts where
  fits := fun p hp => h.fits p (List.mem_cons_of_mem _ hp)
  apart := by
    intro p hp
    cases parts with
    | nil => cases hp
    | cons q rest => exact h.apart p (List.mem_cons_of_mem _ hp)

/-- A sequence of clauses starts with a letter that does not start the word BY. -/
theorem Fit.head (h : Fit parts) (hn : parts ≠ []) :
    ∃ c cs, chars parts = c :: cs ∧ isNameChar c = true ∧ c.toUpper ≠ 'B' := by
  cases parts with
  | nil => exact absurd rfl hn
  | cons part rest =>
    have hp := (h.fits part List.mem_cons_self).keyword
    obtain ⟨c, cs, hk, hc⟩ := hp.2.head
    obtain ⟨d, ds, hd, hname⟩ := hp.head
    obtain ⟨rfl, rfl⟩ := List.cons.inj (hk.symm.trans hd)
    refine ⟨c, cs ++ (part.2.content ++ chars rest), ?_, hname, ?_⟩
    · simp [chars_cons, WrittenClause.chars, hk]
    · intro hb
      rw [hb] at hc
      revert hc
      cases part.1 <;> decide

theorem Fit.continues {part : Clause × WrittenClause} (h : Fit (part :: parts)) :
    part.2.Continues (chars parts) := by
  cases parts with
  | nil => exact Or.inl rfl
  | cons next rest =>
    refine Or.inr ⟨h.apart part List.mem_cons_self, ?_⟩
    obtain ⟨c, cs, hc, hname, hb⟩ := h.tail.head (List.cons_ne_nil _ _)
    rw [hc, trimStart_of_head (by simpa using not_isBlank_of_isNameChar hname)]
    exact word?_cons_of_ne hb _ _

theorem Fit.balanced (h : Fit parts) : Balanced (chars parts) := by
  induction parts with
  | nil => exact balanced_gap isGap_nil
  | cons part rest ih =>
    have hp := h.fits part List.mem_cons_self
    rw [chars_cons]
    exact (hp.keyword.balanced.append hp.balanced_content).append (ih h.tail)

theorem Fit.cutWords (h : Fit parts) {seen : List Clause} (hs : ∀ part ∈ parts, part.1 ∉ seen)
    (hd : (parts.map (·.1)).Nodup) :
    Nesting.cutWords findKeyword (.outside 0) true 0 seen (chars parts) =
      ([], parts.map fun part => (part.1, part.2.content)) := by
  induction parts generalizing seen with
  | nil => rfl
  | cons part rest ih =>
    have hp := h.fits part List.mem_cons_self
    rw [List.map_cons, List.nodup_cons] at hd
    have hseen : ∀ p ∈ rest, p.1 ∉ part.1 :: seen := by
      intro p hm hmem
      rcases List.mem_cons.mp hmem with he | hmem
      · exact hd.1 (he ▸ List.mem_map_of_mem hm)
      · exact hs p (List.mem_cons_of_mem _ hm) hmem
    rw [chars_cons, hp.cutWords_chars h.continues (hs part List.mem_cons_self),
      ih h.tail hseen hd.2, List.append_nil]
    rfl

theorem Fit.trim_content (h : Fit parts) :
    (parts.map fun part => (part.1, trim part.2.content)) = texts parts :=
  List.map_congr_left fun part hp => by rw [(h.fits part hp).trim_content]

theorem Fit.exists_tidy (h : Fit parts) (hn : parts ≠ [])
    (hl : ∀ part ∈ parts.getLast?, part.2.text.getLast? ≠ some ';') :
    ∃ tidied rest, chars parts = chars tidied ++ rest ∧ IsGap rest ∧ Fit tidied ∧
      texts tidied = texts parts ∧
      ∀ c ∈ (chars tidied).getLast?, isBlank c = false ∧ c ≠ ';' := by
  obtain ⟨init, last, rfl⟩ : ∃ init last, parts = init ++ [last] :=
    ⟨_, _, (List.dropLast_concat_getLast hn).symm⟩
  have hlast := h.fits last (by simp)
  have hsemi := hl last (by simp)
  obtain ⟨rest, hg, hrest⟩ := hlast.chars_eq_tidy
  have happend (p : Clause × WrittenClause) : chars (init ++ [p]) = chars init ++ p.2.chars := by
    simp [chars]
  have hne : last.2.tidy.chars ≠ [] := by
    obtain ⟨c, cs, hk, -⟩ := hlast.keyword.head
    simp [WrittenClause.chars, WrittenClause.tidy, hk]
  refine ⟨init ++ [(last.1, last.2.tidy)], rest, ?_, hg, ⟨?_, ?_⟩, ?_, ?_⟩
  · rw [happend, happend, hrest, List.append_assoc]
  · intro part hp
    rcases List.mem_append.mp hp with hp | hp
    · exact h.fits part (List.mem_append_left _ hp)
    · cases List.mem_singleton.mp hp
      exact hlast.tidy
  · rw [List.dropLast_concat]
    have ha := h.apart
    rwa [List.dropLast_concat] at ha
  · simp [texts, WrittenClause.tidy]
  · rw [happend, getLast?_of_append hne]
    exact hlast.tidy_last hsemi

end Parts

/-- Behind a text that ends in neither, blanks and semicolons are no part of a query. -/
theorem body_eq {core rest g : List Char} (hn : core ≠ []) (hc : IsTrimmed core)
    (hl : core.getLast? ≠ some ';') (hr : IsGap rest) (hg : IsGap g) (k : Nat) :
    body (String.ofList (core ++ rest ++ (List.replicate k ';' ++ g))) = core := by
  have htrim : ∃ r, IsGap r ∧
      trim (core ++ rest ++ (List.replicate k ';' ++ g)) = core ++ r ++ List.replicate k ';' := by
    cases k with
    | zero =>
      refine ⟨[], isGap_nil, ?_⟩
      have ht := trim_between (g := []) isGap_nil hc (isGap_append.mpr ⟨hr, hg⟩)
      simpa using ht
    | succ k =>
      refine ⟨rest, hr, ?_⟩
      have ht : IsTrimmed (core ++ rest ++ List.replicate (k + 1) ';') := by
        rw [List.append_assoc]
        refine hc.append hn (by simp) ?_
        intro c hh
        rw [getLast?_of_append (by simp), List.getLast?_replicate] at hh
        cases Option.some.inj hh
        decide
      have hb := trim_between (g := []) isGap_nil ht hg
      simpa using hb
  obtain ⟨r, hrg, ht⟩ := htrim
  have hdrop : (core ++ r).reverse.dropWhile (· == ';') = (core ++ r).reverse := by
    cases hs : (core ++ r).reverse with
    | nil => rfl
    | cons c cs =>
      have hlast : (core ++ r).getLast? = some c := by rw [← List.head?_reverse, hs]; rfl
      rw [List.dropWhile_cons_of_neg]
      intro hc
      rw [beq_iff_eq] at hc
      subst hc
      by_cases hr : r = []
      · rw [hr, List.append_nil] at hlast
        exact hl hlast
      · rw [getLast?_of_append hr] at hlast
        exact absurd (hrg ';' (List.mem_of_getLast? hlast)) (by decide)
  rw [body, String.toList_ofList, ht, List.reverse_append, List.reverse_replicate,
    List.dropWhile_append_of_pos (by simp), hdrop, List.reverse_reverse]
  have hb := trim_between (g := []) isGap_nil hc hrg
  simpa using hb

theorem misplaced?_eq_none {clauses : List Clause}
    (h : clauses.Pairwise fun a b => a.position < b.position) : misplaced? clauses = none := by
  induction clauses with
  | nil => rfl
  | cons first rest ih =>
    cases rest with
    | nil => rfl
    | cons second rest =>
      obtain ⟨hf, hr⟩ := List.pairwise_cons.mp h
      have hp := hf second List.mem_cons_self
      rw [misplaced?, if_neg (by omega)]
      exact ih hr

theorem textOf?_eq (cuts : List (Clause × List Char)) (clause : Clause) :
    textOf? cuts clause =
      ((cuts.map fun cut => (cut.1, trim cut.2)).lookup clause).map String.ofList := by
  induction cuts with
  | nil => rfl
  | cons cut cuts ih =>
    rw [textOf?] at ih ⊢
    rw [List.map_cons, List.lookup_cons, List.lookup_cons]
    cases clause == cut.1 with
    | true => rfl
    | false => exact ih

theorem ofQuery_eq {query : String} {core select source : List Char}
    {cuts : List (Clause × List Char)} (hbody : body query = core) (hn : core ≠ [])
    (hb : Balanced core) (hc : Nesting.cutWords findKeyword (.outside 0) true 0 [] core =
      ([], (.select, select) :: (.source, source) :: cuts))
    (hm : misplaced? (.select :: .source :: cuts.map (·.1)) = none)
    (hs : isName (trim source) = true) :
    ofQuery query = .ok {
      select := String.ofList (trim select)
      source := String.ofList (trim source)
      filter := textOf? cuts .filter
      group := textOf? cuts .group
      order := textOf? cuts .order
      limit := textOf? cuts .limit } := by
  have hempty : core.isEmpty = false := by simpa using hn
  have hsource : (trim source).isEmpty = false := by
    cases ht : trim source with
    | nil => rw [ht] at hs; cases hs
    | cons c cs => rfl
  unfold ofQuery
  simp only [hbody, hempty, requireBalance_of_balanced hb, hc, hm, hsource, hs]
  rfl

/-- A select list, a table name, and the clauses that may follow. -/
structure WrittenQuery where
  select : WrittenClause
  source : WrittenClause
  filter : Option WrittenClause
  group : Option WrittenClause
  order : Option WrittenClause
  limit : Option WrittenClause

namespace WrittenQuery

def later (q : WrittenQuery) : Parts :=
  (q.filter.map (Clause.filter, ·)).toList ++ (q.group.map (Clause.group, ·)).toList ++
    (q.order.map (Clause.order, ·)).toList ++ (q.limit.map (Clause.limit, ·)).toList

def parts (q : WrittenQuery) : Parts := (.select, q.select) :: (.source, q.source) :: q.later

def chars (q : WrittenQuery) : List Char := q.parts.chars

structure WellWritten (q : WrittenQuery) : Prop where
  fit : q.parts.Fit
  named : isName q.source.text = true
  ended : ∀ part ∈ q.parts.getLast?, part.2.text.getLast? ≠ some ';'

def outline (q : WrittenQuery) : Outline where
  select := String.ofList q.select.text
  source := String.ofList q.source.text
  filter := q.filter.map fun w => String.ofList w.text
  group := q.group.map fun w => String.ofList w.text
  order := q.order.map fun w => String.ofList w.text
  limit := q.limit.map fun w => String.ofList w.text

theorem parts_increasing (q : WrittenQuery) :
    (q.parts.map (·.1)).Pairwise fun a b => a.position < b.position := by
  obtain ⟨select, source, filter, group, order, limit⟩ := q
  cases filter <;> cases group <;> cases order <;> cases limit <;>
    simp [parts, later, Clause.position]

theorem parts_nodup (q : WrittenQuery) : (q.parts.map (·.1)).Nodup := by
  refine q.parts_increasing.imp ?_
  rintro a b hab rfl
  exact Nat.lt_irrefl _ hab

theorem outline_eq (q : WrittenQuery) : q.outline =
    let text? (clause : Clause) := (q.later.texts.lookup clause).map String.ofList
    { select := String.ofList q.select.text
      source := String.ofList q.source.text
      filter := text? .filter
      group := text? .group
      order := text? .order
      limit := text? .limit } := by
  obtain ⟨select, source, filter, group, order, limit⟩ := q
  cases filter <;> cases group <;> cases order <;> cases limit <;> rfl

/-- A composed query is taken apart into exactly the texts it was composed of. -/
theorem ofQuery_chars (q : WrittenQuery) (h : q.WellWritten) (semicolons : Nat)
    (gap : List Char) (hg : IsGap gap) :
    ofQuery (String.ofList (q.chars ++ (List.replicate semicolons ';' ++ gap))) =
      .ok q.outline := by
  have hne : q.parts ≠ [] := List.cons_ne_nil _ _
  obtain ⟨tidied, rest, hchars, hrest, hfit, htexts, hlast⟩ := h.fit.exists_tidy hne h.ended
  have hclauses : tidied.map (·.1) = q.parts.map (·.1) := by
    simpa [Parts.texts, Function.comp_def] using congrArg (List.map (·.1)) htexts
  have htidied : tidied ≠ [] := by
    rintro rfl
    simp [parts] at hclauses
  obtain ⟨c, cs, hcore, hname, -⟩ := hfit.head htidied
  have hbody : body (String.ofList (q.chars ++ (List.replicate semicolons ';' ++ gap))) =
      tidied.chars := by
    rw [chars, hchars]
    refine body_eq (by simp [hcore]) ⟨?_, fun d hd => (hlast d hd).1⟩ ?_ hrest hg semicolons
    · rw [hcore]
      intro d hd
      cases Option.some.inj hd
      exact not_isBlank_of_isNameChar hname
    · intro hs
      exact (hlast ';' hs).2 rfl
  have hunseen : ∀ part ∈ tidied, part.1 ∉ ([] : List Clause) := by simp
  have hcuts := hfit.cutWords hunseen (hclauses ▸ q.parts_nodup)
  have htrim := hfit.trim_content.trans htexts
  have hnames : (tidied.map fun part => (part.1, part.2.content)).map (·.1) =
      q.parts.map (·.1) := by
    rw [← hclauses, List.map_map]
    rfl
  have htrimmed : (tidied.map fun part => (part.1, part.2.content)).map
      (fun cut => (cut.1, trim cut.2)) = Parts.texts q.parts := by
    rw [← htrim, List.map_map]
    rfl
  generalize (tidied.map fun part => (part.1, part.2.content)) = all at hcuts hnames htrimmed
  obtain ⟨⟨_, select⟩, behind, rfl, hfirst, hbehind⟩ := List.map_eq_cons_iff.mp htrimmed
  obtain ⟨⟨_, source⟩, cuts, rfl, hsecond, hlater⟩ := List.map_eq_cons_iff.mp hbehind
  obtain ⟨rfl, hselect⟩ := Prod.mk.inj hfirst
  obtain ⟨rfl, hsource⟩ := Prod.mk.inj hsecond
  replace hlater : (cuts.map fun cut => (cut.1, trim cut.2)) = q.later.texts := hlater
  have hmis := misplaced?_eq_none (hnames ▸ q.parts_increasing)
  rw [ofQuery_eq hbody (by simp [hcore]) hfit.balanced hcuts hmis (by rw [hsource]; exact h.named),
    q.outline_eq]
  simp only [hselect, hsource, textOf?_eq, hlater]

/-- Keywords in quotes, in parentheses and in longer words move no boundary. -/
theorem ofQuery_lookalikes :
    let q : WrittenQuery := {
      select := ⟨"Select".toList, "\n ".toList, "a, 'x FROM y' , (LIMIT 1), wheres".toList,
        " ".toList⟩
      source := ⟨"from".toList, " ".toList, "groups".toList, "\t".toList⟩
      filter := none
      group := some ⟨"group  By".toList, " ".toList, "by".toList, " ".toList⟩
      order := none
      limit := some ⟨"LIMIT".toList, [], [], " ".toList⟩ }
    q.WellWritten ∧ IsGap ['\n'] ∧
      ofQuery (String.ofList (q.chars ++ (List.replicate 2 ';' ++ ['\n']))) =
        .ok ⟨"a, 'x FROM y' , (LIMIT 1), wheres", "groups", none, some "by", none, some ""⟩ := by
  intro q
  have hq : q.WellWritten := ⟨⟨by decide, by decide⟩, by decide, by decide⟩
  exact ⟨hq, by decide, ofQuery_chars q hq 2 ['\n'] (by decide)⟩

end WrittenQuery
end TableQuery.Outline
