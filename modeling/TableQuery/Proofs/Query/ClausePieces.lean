import TableQuery.Proofs.Query.SelectedItem

/-! # The pieces of a query

A query that has an outline is made of keywords and the texts behind them, without a rest. Each
keyword is the first of its clause that is a word of its own at the top level, and the clauses of
the outline are the trimmed texts of the pieces.
-/
namespace TableQuery.Outline
open Text Nesting

/-- A keyword that is a word of its own at the top level, between two texts. -/
structure Stands (clause : Clause) (before keyword after : List Char) : Prop where
  isKeyword : IsKeyword clause keyword
  top : behind (.outside 0) before = .outside 0
  front : ∀ c ∈ before.getLast?, isBlank c = true
  ends : wordEnds after = true

/-- The keyword of a clause stands at a place of the first of two texts. -/
def StandsIn (clause : Clause) (front rest : List Char) : Prop :=
  ∃ before keyword after, front ++ rest = before ++ (keyword ++ after) ∧
    before.length < front.length ∧ Stands clause before keyword after

/-- A keyword in front of which no other keyword of its clause stands. -/
structure StandsFirst (clause : Clause) (before keyword after : List Char) : Prop extends
    Stands clause before keyword after where
  first : ¬StandsIn clause before (keyword ++ after)

variable {clause other : Clause} {front keyword after rest : List Char} {c : Char}
  {seen : List Clause}

theorem Stands.keyword?_eq (h : Stands clause front keyword after) :
    keyword? (keyword ++ after) = some (clause, keyword.length) :=
  keyword?_eq_some_iff.mpr ⟨keyword, after, rfl, h.isKeyword, h.ends, rfl⟩

theorem stands_of_keyword? {length : Nat}
    (hstart : (startBehind true front && (behind (.outside 0) front).isTop c) = true)
    (h : keyword? (c :: rest) = some (clause, length)) :
    ∃ keyword after, c :: rest = keyword ++ after ∧ Stands clause front keyword after := by
  obtain ⟨keyword, after, hsplit, hkeyword, hends, -⟩ := keyword?_eq_some_iff.mp h
  rw [Bool.and_eq_true, isTop, Bool.and_eq_true, beq_iff_eq] at hstart
  exact ⟨keyword, after, hsplit, hkeyword, hstart.2.1, startBehind_true_iff.mp hstart.1, hends⟩

theorem Stands.clause_eq {keyword' after' : List Char} (h : Stands clause front keyword after)
    (h' : Stands other front keyword' after') (heq : keyword ++ after = keyword' ++ after') :
    clause = other := by
  have hfound := h.keyword?_eq
  rw [heq, h'.keyword?_eq] at hfound
  exact (Prod.mk.inj (Option.some.inj hfound)).1.symm

theorem standsIn_concat : StandsIn clause (front ++ [c]) rest ↔ StandsIn clause front (c :: rest) ∨
    ∃ keyword after, c :: rest = keyword ++ after ∧ Stands clause front keyword after := by
  unfold StandsIn
  rw [List.append_assoc, List.singleton_append, List.length_append, List.length_singleton]
  constructor
  · rintro ⟨before, keyword, after, hsplit, hlt, hstands⟩
    rcases Nat.lt_succ_iff_lt_or_eq.mp hlt with hlt | heq
    · exact .inl ⟨before, keyword, after, hsplit, hlt, hstands⟩
    · obtain ⟨rfl, hrest⟩ := List.append_inj hsplit heq.symm
      exact .inr ⟨keyword, after, hrest, hstands⟩
  · rintro (⟨before, keyword, after, hsplit, hlt, hstands⟩ | ⟨keyword, after, hrest, hstands⟩)
    · exact ⟨before, keyword, after, hsplit, Nat.lt_succ_of_lt hlt, hstands⟩
    · exact ⟨front, keyword, after, by rw [hrest], Nat.lt_succ_self _, hstands⟩

theorem Spells.mem_zip {name cs : List Char} (h : Spells name cs)
    (hn : ∀ x ∈ name, x = ' ' ∨ x.isUpper = true) {a b : List Char} (hcs : cs = a ++ c :: b)
    (hne : a ≠ []) (ha : ∀ d ∈ a.getLast?, isBlank d = true) (hc : isNameChar c = true) :
    (' ', c.toUpper) ∈ name.zip name.tail := by
  induction h generalizing a with
  | nil => cases a <;> cases hcs
  | @letter x d w cs hx hd h ih =>
    obtain ⟨e, a, rfl⟩ := List.exists_cons_of_ne_nil hne
    obtain ⟨rfl, rfl⟩ := List.cons.inj hcs
    have hupper : x.isUpper = true := (hn x List.mem_cons_self).resolve_left hx
    cases a with
    | nil =>
      have hblank := ha d rfl
      rw [not_isBlank_of_isNameChar (isNameChar_of_toUpper (hd ▸ hupper))] at hblank
      cases hblank
    | cons e a =>
      have hmem := ih (fun y hy => hn y (List.mem_cons_of_mem _ hy)) rfl (List.cons_ne_nil _ _) ha
      cases w with
      | nil => cases hmem
      | cons y w => exact List.mem_cons_of_mem _ hmem
  | @gap g w cs hg hb h ih =>
    have hnoblank : isBlank c = false := not_isBlank_of_isNameChar hc
    have hbehind : ∃ a', a = g ++ a' ∧ cs = a' ++ c :: b := by
      rcases List.append_eq_append_iff.mp hcs with ⟨a', rfl, hrest⟩ | ⟨a', rfl, hrest⟩
      · exact ⟨a', rfl, hrest⟩
      · cases a' with
        | nil => exact ⟨[], by simp, hrest.symm⟩
        | cons d a' =>
          obtain ⟨rfl, -⟩ := List.cons.inj hrest
          rw [hb c (by simp)] at hnoblank
          cases hnoblank
    obtain ⟨a', rfl, rfl⟩ := hbehind
    cases a' with
    | nil =>
      generalize htail : [] ++ c :: b = tail at h
      cases h with
      | nil => cases htail
      | letter hx hd h =>
        cases htail
        rw [hd]
        exact List.mem_cons_self
      | @gap g' w cs hg' hb' h =>
        obtain ⟨d, g', rfl⟩ := List.exists_cons_of_ne_nil hg'
        obtain ⟨rfl, -⟩ := List.cons.inj htail
        rw [hb' c List.mem_cons_self] at hnoblank
        cases hnoblank
    | cons d a' =>
      rw [getLast?_of_append (List.cons_ne_nil d a')] at ha
      have hmem := ih (fun y hy => hn y (List.mem_cons_of_mem _ hy)) rfl (List.cons_ne_nil _ _) ha
      cases w with
      | nil => cases hmem
      | cons y w => exact List.mem_cons_of_mem _ hmem

theorem IsKeyword.inner_eq_nil {inner keyword' after' : List Char} (h : IsKeyword clause keyword)
    (h' : IsKeyword other keyword') (hsplit : keyword ++ after = inner ++ (keyword' ++ after'))
    (hlt : inner.length < keyword.length) (hblank : ∀ c ∈ inner.getLast?, isBlank c = true) :
    inner = [] := by
  refine Decidable.byContradiction fun hne => ?_
  obtain ⟨c, tail, rfl, hname⟩ := h'.head
  have hkeyword : ∃ b, keyword = inner ++ c :: b := by
    rcases List.append_eq_append_iff.mp hsplit with ⟨b, rfl, -⟩ | ⟨b, rfl, hb⟩
    · rw [List.length_append] at hlt
      omega
    · cases b with
      | nil => simp at hlt
      | cons d b => exact ⟨b, by rw [(List.cons.inj hb).1]⟩
  obtain ⟨b, rfl⟩ := hkeyword
  have hmem := h.2.mem_zip (by cases clause <;> decide) rfl hne hblank hname
  have hby : ∀ pair ∈ clause.name.toList.zip clause.name.toList.tail,
      pair.1 = ' ' → pair.2 = 'B' := by cases clause <;> decide
  obtain ⟨d, cs, heq, hhead⟩ := h'.2.head
  cases (List.cons.inj heq).1
  have hletter : c.toUpper = 'B' := hby _ hmem rfl
  rw [hletter] at hhead
  revert hhead
  cases other <;> decide

theorem standsIn_append (h : Stands clause front keyword after) :
    StandsIn other (front ++ keyword) after ↔
      StandsIn other front (keyword ++ after) ∨ other = clause := by
  constructor
  · rintro ⟨before, keyword', after', hsplit, hlt, hstands⟩
    rw [List.append_assoc] at hsplit
    rw [List.length_append] at hlt
    by_cases hfront : before.length < front.length
    · exact .inl ⟨before, keyword', after', hsplit, hfront, hstands⟩
    · obtain ⟨inner, rfl⟩ : front <+: before :=
        List.prefix_of_prefix_length_le ⟨_, hsplit⟩ ⟨_, rfl⟩ (by omega)
      rw [List.append_assoc, List.append_cancel_left_eq] at hsplit
      rw [List.length_append] at hlt
      have hblank : ∀ c ∈ inner.getLast?, isBlank c = true := by
        intro c hc
        have hne : inner ≠ [] := fun hnil => by simp [hnil] at hc
        exact hstands.front c (by rwa [getLast?_of_append hne])
      obtain rfl := h.isKeyword.inner_eq_nil hstands.isKeyword hsplit (by omega) hblank
      rw [List.append_nil] at hstands
      exact .inr (h.clause_eq hstands hsplit).symm
  · rintro (⟨before, keyword', after', hsplit, hlt, hstands⟩ | rfl)
    · refine ⟨before, keyword', after', by rw [List.append_assoc, hsplit], ?_, hstands⟩
      rw [List.length_append]
      omega
    · refine ⟨front, keyword, after, List.append_assoc _ _ _, ?_, h⟩
      obtain ⟨c, tail, rfl, -⟩ := h.isKeyword.head
      simp

/-- The cuts of a text behind another, when some keywords have been met. -/
def cutsBehind (front : List Char) (seen : List Clause) (rest : List Char) :
    List Char × List (Clause × List Char) :=
  cutWords findKeyword (behind (.outside 0) front) (startBehind true front) 0 seen rest

theorem cutsBehind_keep (h : ∀ clause keyword after, c :: rest = keyword ++ after →
      Stands clause front keyword after → clause ∈ seen) :
    cutsBehind front seen (c :: rest) =
      (c :: (cutsBehind (front ++ [c]) seen rest).1, (cutsBehind (front ++ [c]) seen rest).2) := by
  have hfind : ∀ found, (if startBehind true front && (behind (.outside 0) front).isTop c then
      findKeyword seen (c :: rest) else none) = some found → found.1 = seen ∧ found.2.1 = none := by
    intro found hfound
    split at hfound
    · next hstart =>
      obtain ⟨⟨clause, length⟩, hkeyword, rfl⟩ := Option.map_eq_some_iff.mp hfound
      obtain ⟨keyword, after, hsplit, hstands⟩ := stands_of_keyword? hstart hkeyword
      simp [h clause keyword after hsplit hstands]
    · cases hfound
  unfold cutsBehind
  rw [behind_append, startBehind_append, cutWords]
  split
  · next hfound => exact absurd (hfind _ hfound).2 (by simp)
  · next hfound =>
    rw [← (hfind _ hfound).1]
    rfl
  · rfl

theorem cutsBehind_cut (h : Stands clause front keyword after) (hseen : clause ∉ seen) :
    cutsBehind front seen (keyword ++ after) =
      ([], (clause, (cutsBehind (front ++ keyword) (clause :: seen) after).1) ::
        (cutsBehind (front ++ keyword) (clause :: seen) after).2) := by
  have hbehind : behind (.outside 0) keyword = .outside 0 :=
    h.isKeyword.balanced.behind_eq
  have hne : keyword ≠ [] := by
    obtain ⟨c, tail, rfl, -⟩ := h.isKeyword.head
    exact List.cons_ne_nil c tail
  have hstart (start : Bool) : startBehind start keyword = false :=
    startBehind_of_last hne
      (fun d hd => not_isBlank_of_isNameChar (h.isKeyword.last d hd)) start
  unfold cutsBehind
  rw [behind_append, startBehind_append, h.top, startBehind_true_iff.mpr h.front, hbehind, hstart,
    cutWords_keyword h.isKeyword hseen h.ends]

structure Piece where
  clause : Clause
  keyword : List Char
  text : List Char

def Piece.chars (p : Piece) : List Char := p.keyword ++ p.text

def charsOf (pieces : List Piece) : List Char := pieces.flatMap Piece.chars

/-- A text is made of a head and of pieces that start with the keywords not met before. -/
structure Makes (front : List Char) (seen : List Clause) (rest head : List Char)
    (pieces : List Piece) : Prop where
  text : rest = head ++ charsOf pieces
  first : ∀ before p later, pieces = before ++ p :: later →
    StandsFirst p.clause (front ++ (head ++ charsOf before)) p.keyword (p.text ++ charsOf later)
  fresh : ∀ p ∈ pieces, p.clause ∉ seen
  nodup : (pieces.map Piece.clause).Nodup
  all : ∀ clause, StandsIn clause (front ++ rest) [] →
    clause ∈ seen ∨ clause ∈ pieces.map Piece.clause

theorem makes_nil (hseen : ∀ clause, clause ∈ seen ↔ StandsIn clause front []) :
    Makes front seen [] [] [] where
  text := rfl
  first := by
    intro before p later h
    simp at h
  fresh := by simp
  nodup := List.nodup_nil
  all clause h := by
    rw [List.append_nil] at h
    exact .inl ((hseen clause).mpr h)

theorem Makes.keep {head : List Char} {pieces : List Piece}
    (h : Makes (front ++ [c]) seen rest head pieces) :
    Makes front seen (c :: rest) (c :: head) pieces where
  text := by rw [h.text, List.cons_append]
  first before p later hsplit := by simpa using h.first before p later hsplit
  fresh := h.fresh
  nodup := h.nodup
  all clause hstands := h.all clause (by simpa using hstands)

theorem Makes.cut {head : List Char} {pieces : List Piece}
    (h : Makes (front ++ keyword) (clause :: seen) after head pieces)
    (hstands : StandsFirst clause front keyword after) (hseen : clause ∉ seen) :
    Makes front seen (keyword ++ after) [] (⟨clause, keyword, head⟩ :: pieces) where
  text := by
    rw [h.text]
    simp [charsOf, Piece.chars]
  first before p later hsplit := by
    cases before with
    | nil =>
      obtain ⟨rfl, rfl⟩ := List.cons.inj hsplit
      rw [h.text] at hstands
      simpa [charsOf] using hstands
    | cons q before =>
      obtain ⟨rfl, htail⟩ := List.cons.inj hsplit
      simpa [charsOf, Piece.chars] using h.first before p later htail
  fresh p hp := by
    rcases List.mem_cons.mp hp with rfl | hp
    · exact hseen
    · exact fun hmem => h.fresh p hp (List.mem_cons_of_mem clause hmem)
  nodup := by
    rw [List.map_cons, List.nodup_cons]
    refine ⟨fun hmem => ?_, h.nodup⟩
    obtain ⟨p, hp, rfl⟩ := List.mem_map.mp hmem
    exact h.fresh p hp List.mem_cons_self
  all other hother := by
    rcases h.all other (by simpa using hother) with hmem | hmem
    · rcases List.mem_cons.mp hmem with rfl | hmem
      · exact .inr List.mem_cons_self
      · exact .inl hmem
    · exact .inr (List.mem_cons_of_mem _ hmem)

theorem makes_of_cutsBehind (front rest : List Char) (seen : List Clause)
    (hseen : ∀ clause, clause ∈ seen ↔ StandsIn clause front rest) :
    ∃ pieces, (cutsBehind front seen rest).2 = pieces.map (fun p => (p.clause, p.text)) ∧
      Makes front seen rest (cutsBehind front seen rest).1 pieces := by
  cases rest with
  | nil => exact ⟨[], rfl, makes_nil hseen⟩
  | cons c rest =>
    by_cases hnew : ∃ clause keyword after, c :: rest = keyword ++ after ∧
        Stands clause front keyword after ∧ clause ∉ seen
    · obtain ⟨clause, keyword, after, hsplit, hstands, hfresh⟩ := hnew
      have hshorter : after.length < (c :: rest).length := by
        obtain ⟨d, tail, rfl, -⟩ := hstands.isKeyword.head
        rw [hsplit, List.length_append, List.length_cons]
        omega
      rw [hsplit] at hseen ⊢
      obtain ⟨pieces, hpieces, hmakes⟩ :=
        makes_of_cutsBehind (front ++ keyword) after (clause :: seen) fun other => by
          rw [standsIn_append hstands, List.mem_cons, hseen, or_comm]
      have hfirst : StandsFirst clause front keyword after :=
        ⟨hstands, fun h => hfresh ((hseen clause).mpr h)⟩
      rw [cutsBehind_cut hstands hfresh, hpieces]
      exact ⟨⟨clause, keyword, _⟩ :: pieces, rfl, hmakes.cut hfirst hfresh⟩
    · have hold : ∀ clause keyword after, c :: rest = keyword ++ after →
          Stands clause front keyword after → clause ∈ seen := by
        intro clause keyword after hsplit hstands
        refine Decidable.byContradiction fun hfresh => ?_
        exact hnew ⟨clause, keyword, after, hsplit, hstands, hfresh⟩
      obtain ⟨pieces, hpieces, hmakes⟩ :=
        makes_of_cutsBehind (front ++ [c]) rest seen fun other => by
          rw [standsIn_concat, hseen]
          refine ⟨.inl, fun h => h.elim id ?_⟩
          rintro ⟨keyword, after, hsplit, hstands⟩
          exact (hseen other).mp (hold other keyword after hsplit hstands)
      rw [cutsBehind_keep hold]
      exact ⟨pieces, hpieces, hmakes.keep⟩
termination_by rest.length

def text? (o : Outline) : Clause → Option String
  | .query => none
  | .select => some o.select
  | .source => some o.source
  | .filter => o.filter
  | .group => o.group
  | .order => o.order
  | .limit => o.limit

/-- The pieces of a text and the outline that they give. -/
structure CutInto (text : List Char) (o : Outline) (pieces : List Piece) : Prop where
  text_eq : text = charsOf pieces
  first : ∀ before p later, pieces = before ++ p :: later →
    StandsFirst p.clause (charsOf before) p.keyword (p.text ++ charsOf later)
  increasing : pieces.Pairwise fun p q => p.clause.position < q.clause.position
  select_source : ∃ select source later, pieces = select :: source :: later ∧
    select.clause = .select ∧ source.clause = .source
  present : ∀ p ∈ pieces, o.text? p.clause = some (String.ofList (trim p.text))
  absent : ∀ clause, clause ∉ pieces.map Piece.clause →
    o.text? clause = none ∧ ¬StandsIn clause text []
  isName_source : isName o.source.toList = true

theorem position_injective {a b : Clause} (h : a.position = b.position) : a = b := by
  cases a <;> cases b <;> first | rfl | cases h

theorem pairwise_of_misplaced? {clauses : List Clause} (h : misplaced? clauses = none)
    (hd : clauses.Nodup) : clauses.Pairwise fun a b => a.position < b.position := by
  induction clauses with
  | nil => exact .nil
  | cons first clauses ih =>
    cases clauses with
    | nil => exact List.pairwise_singleton _ _
    | cons second clauses =>
      rw [misplaced?] at h
      split at h
      · cases h
      · next hle =>
        obtain ⟨hfirst, hd⟩ := List.nodup_cons.mp hd
        have hrest := ih h hd
        have hlt : first.position < second.position := by
          rcases Nat.lt_or_ge first.position second.position with hlt | hge
          · exact hlt
          · have heq : first = second := position_injective (by omega)
            exact absurd (heq ▸ List.mem_cons_self) hfirst
        refine List.pairwise_cons.mpr ⟨fun clause hmem => ?_, hrest⟩
        rcases List.mem_cons.mp hmem with rfl | hmem
        · exact hlt
        · exact Nat.lt_trans hlt ((List.pairwise_cons.mp hrest).1 clause hmem)

theorem textOf?_of_mem {pieces : List Piece} (hd : (pieces.map Piece.clause).Nodup) {p : Piece}
    (hp : p ∈ pieces) : textOf? (pieces.map fun p => (p.clause, p.text)) p.clause =
      some (String.ofList (trim p.text)) := by
  obtain ⟨before, later, rfl⟩ := List.append_of_mem hp
  have hbefore : ∀ q ∈ before, q.clause ≠ p.clause := by
    rw [List.map_append, List.map_cons, List.nodup_append] at hd
    exact fun q hq => hd.2.2 _ (List.mem_map_of_mem hq) _ List.mem_cons_self
  have hlookup : ((before ++ p :: later).map fun p => (p.clause, p.text)).lookup p.clause =
      some p.text := by
    rw [List.lookup_eq_some_iff]
    refine ⟨before.map fun p => (p.clause, p.text), later.map fun p => (p.clause, p.text), ?_, ?_⟩
    · simp
    · simpa using fun q hq => (hbefore q hq).symm
  rw [textOf?, hlookup]
  rfl

theorem textOf?_of_notMem {pieces : List Piece} (h : clause ∉ pieces.map Piece.clause) :
    textOf? (pieces.map fun p => (p.clause, p.text)) clause = none := by
  rw [textOf?, Option.map_eq_none_iff, List.lookup_eq_none_iff]
  simp only [List.mem_map, not_exists, not_and] at h
  simpa using fun q hq => Ne.symm (h q hq)

/-- A query is its body with blanks around it, and with semicolons among those behind it. -/
theorem exists_body (query : String) : ∃ front gap stops back,
    query.toList = front ++ (body query ++ (gap ++ (stops ++ back))) ∧ IsTrimmed (body query) ∧
      IsGap front ∧ IsGap gap ∧ (∀ c ∈ stops, c = ';') ∧ IsGap back := by
  obtain ⟨front, back, hfront, hback, -, hquery⟩ := exists_trim query.toList
  have hstops : trim query.toList =
      ((trim query.toList).reverse.dropWhile (· == ';')).reverse ++
        ((trim query.toList).reverse.takeWhile (· == ';')).reverse := by
    rw [← List.reverse_append, List.takeWhile_append_dropWhile, List.reverse_reverse]
  obtain ⟨inner, gap, hinner, hgap, htrimmed, hbody⟩ :=
    exists_trim ((trim query.toList).reverse.dropWhile (· == ';')).reverse
  refine ⟨front ++ inner, gap, ((trim query.toList).reverse.takeWhile (· == ';')).reverse, back,
    ?_, htrimmed, isGap_append.mpr ⟨hfront, hinner⟩, hgap, ?_, hback⟩
  · calc query.toList = front ++ trim query.toList ++ back := hquery
      _ = front ++ ((inner ++ body query ++ gap) ++
            ((trim query.toList).reverse.takeWhile (· == ';')).reverse) ++ back := by
        rw [body, ← hbody, ← hstops]
      _ = _ := by simp only [List.append_assoc]
  · intro c hc
    exact beq_iff_eq.mp (List.all_eq_true.mp List.all_takeWhile c (List.mem_reverse.mp hc))

theorem text?_of_cuts (select source : List Char) (cuts : List (Clause × List Char))
    (hne : clause ≠ .query) :
    text? {
      select := String.ofList (trim select)
      source := String.ofList (trim source)
      filter := textOf? cuts .filter
      group := textOf? cuts .group
      order := textOf? cuts .order
      limit := textOf? cuts .limit } clause =
    textOf? ((.select, select) :: (.source, source) :: cuts) clause := by
  cases clause with
  | query => exact absurd rfl hne
  | _ => rfl

/-- A query with an outline is, but for blanks and semicolons around it, the keywords of its
clauses, each the first of its clause, with the texts that the outline holds behind them. -/
theorem exists_pieces {query : String} {o : Outline} (h : ofQuery query = .ok o) :
    (∃ front gap stops back, query.toList = front ++ (body query ++ (gap ++ (stops ++ back))) ∧
      IsTrimmed (body query) ∧ IsGap front ∧ IsGap gap ∧ (∀ c ∈ stops, c = ';') ∧ IsGap back) ∧
    ∃ pieces, CutInto (body query) o pieces := by
  obtain ⟨select, source, cuts, hcuts, hplaced, hname, rfl⟩ := cuts_of_ofQuery h
  obtain ⟨pieces, hpieces, hmakes⟩ :=
    makes_of_cutsBehind [] (body query) [] fun clause => by simp [StandsIn]
  have hbehind : cutsBehind [] [] (body query) =
      ([], (.select, select) :: (.source, source) :: cuts) := hcuts
  rw [hbehind] at hpieces hmakes
  dsimp only at hpieces
  have hclauses : pieces.map Piece.clause = .select :: .source :: cuts.map (·.1) := by
    have hfst := congrArg (List.map Prod.fst) hpieces
    rw [List.map_map] at hfst
    exact hfst.symm
  refine ⟨exists_body query, pieces, ?_, ?_, ?_, ?_, ?_, ?_, ?_⟩
  · rw [hmakes.text, List.nil_append]
  · intro before p later hsplit
    simpa using hmakes.first before p later hsplit
  · rw [← hclauses] at hplaced
    have hpairwise := pairwise_of_misplaced? hplaced hmakes.nodup
    rwa [List.pairwise_map] at hpairwise
  · obtain ⟨first, tail, rfl, hfirst, htail⟩ := List.map_eq_cons_iff.mp hclauses
    obtain ⟨second, later, rfl, hsecond, -⟩ := List.map_eq_cons_iff.mp htail
    exact ⟨first, second, later, rfl, hfirst, hsecond⟩
  · intro p hp
    obtain ⟨before, later, hsplit⟩ := List.append_of_mem hp
    have hkeyword := (hmakes.first before p later hsplit).isKeyword
    rw [text?_of_cuts _ _ _ hkeyword.1, hpieces]
    exact textOf?_of_mem hmakes.nodup hp
  · intro clause hclause
    have hstands : ¬StandsIn clause (body query) [] := fun hstands =>
      (hmakes.all clause (by rwa [List.nil_append])).elim List.not_mem_nil hclause
    refine ⟨?_, hstands⟩
    by_cases hquery : clause = .query
    · rw [hquery]
      rfl
    · rw [text?_of_cuts _ _ _ hquery, hpieces]
      exact textOf?_of_notMem hclause
  · rw [String.toList_ofList]
    exact hname

/-- Keywords in quotes, in parentheses and for the second time stay in their pieces. -/
theorem exists_pieces_repeated :
    let query := "select x, 'FROM' From  t WHERE (where ) = 'LIMIT 1' and Where order\tBY a ;;\n"
    let o : Outline :=
      ⟨"x, 'FROM'", "t", some "(where ) = 'LIMIT 1' and Where", none, some "a", none⟩
    ofQuery query = .ok o ∧
    (∃ front gap stops back, query.toList = front ++ (body query ++ (gap ++ (stops ++ back))) ∧
      IsTrimmed (body query) ∧ IsGap front ∧ IsGap gap ∧ (∀ c ∈ stops, c = ';') ∧ IsGap back) ∧
    ∃ pieces, CutInto (body query) o pieces := by
  intro query o
  have h : ofQuery query = .ok o := Success.of_toOption (by decide +kernel)
  exact ⟨h, exists_pieces h⟩

end TableQuery.Outline
