import TableQuery.Proofs.Query.Bracketing
import TableQuery.Proofs.Query.Commas

/-! # Parts between commas

A text is split at the commas that stand in no quotes and no parentheses, and at no other place.
So the parts of a text are the items that it lists between commas and blanks: an item list is read
back as it was written, and what is read from any other balanced text are balanced items too, one
more than there are such commas.
-/
namespace TableQuery.Nesting
open Text

variable {n : Nesting} {cs : List Char} {parts : List (List Char)}

/-- A text that lists items between commas, with blanks around each item. -/
inductive Lists : List Char → List (List Char) → Prop
  | last {g item h : List Char} : IsGap g → IsGap h → Lists (g ++ item ++ h) [item]
  | comma {g item h rest : List Char} {items : List (List Char)} : IsGap g → IsGap h →
      Lists rest items → Lists (g ++ item ++ h ++ ',' :: rest) (item :: items)

/-- The places of the commas of a text in no quotes and no parentheses: in front of such a comma
the text is well bracketed. -/
def commaPlaces (cs : List Char) : List Nat :=
  (List.range cs.length).filter fun i => cs[i]? = some ',' ∧ Bracketed (cs.take i)

theorem isTop_comma : n.isTop ',' = true ↔ n = outside 0 := by
  rw [isTop, show isOrdinary ',' = true from rfl, Bool.and_true, beq_iff_eq]

/-- In a balanced text nothing is open behind exactly the fronts that are well bracketed. -/
theorem behind_eq_outside_iff {a b : List Char} (h : Balanced (a ++ b)) :
    behind (outside 0) a = outside 0 ↔ Bracketed a := by
  rw [← balanced_iff_bracketed]
  refine ⟨fun hbehind => ?_, Balanced.behind_eq⟩
  obtain ⟨m, hm, -⟩ := run?_of_run?_append (balanced_iff.mp h)
  rw [balanced_iff, hm, ← hbehind, behind_of_run? hm]

/-- In a balanced text the commas at the top level are those in front of which it is well
bracketed. -/
theorem isTop_take_iff (h : Balanced cs) (i : Nat) :
    (behind (outside 0) (cs.take i)).isTop ',' = true ↔ Bracketed (cs.take i) := by
  rw [isTop_comma, behind_eq_outside_iff (b := cs.drop i)]
  rwa [List.take_append_drop]

theorem commaFree_iff (h : Balanced cs) : CommaFree (outside 0) cs ↔ commaPlaces cs = [] := by
  simp only [commaPlaces, List.filter_eq_nil_iff, List.mem_range, decide_eq_true_eq, not_and]
  constructor
  · intro hfree i hi hcomma hfront
    have hsplit : cs = cs.take i ++ ',' :: cs.drop (i + 1) := by
      obtain ⟨hi, hget⟩ := List.getElem?_eq_some_iff.mp hcomma
      rw [← hget, List.getElem_cons_drop, List.take_append_drop]
    have hhidden := hfree _ _ hsplit
    rw [← Bool.not_eq_true, isTop_take_iff h] at hhidden
    exact hhidden hfront
  · rintro hnone a b rfl
    have hplace := hnone a.length (by simp) (by simp)
    rwa [← isTop_take_iff h, List.take_left', Bool.not_eq_true] at hplace
    rfl

theorem length_commaParts (n : Nesting) (cs : List Char) : (commaParts n cs).length =
    ((List.range cs.length).countP fun i =>
      cs[i]? == some ',' && (behind n (cs.take i)).isTop ',') + 1 := by
  induction cs generalizing n with
  | nil => rfl
  | cons c cs ih =>
    have hlater : ((List.range cs.length).map Nat.succ).countP (fun i =>
        (c :: cs)[i]? == some ',' && (behind n ((c :: cs).take i)).isTop ',') + 1 =
        (commaParts (n.next c) cs).length := by
      rw [ih, List.countP_map]
      rfl
    rw [List.length_cons, List.range_succ_eq_map, List.countP_cons, commaParts]
    split
    · next hcomma =>
      obtain ⟨htop, hc⟩ := Bool.and_eq_true_iff.mp hcomma
      obtain rfl := beq_iff_eq.mp hc
      obtain rfl := isTop_comma.mp htop
      have hnext : (outside 0).next ',' = outside 0 := rfl
      rw [hnext] at hlater
      rw [List.length_cons, ← hlater]
      rfl
    · next hcomma =>
      have hfirst : ((c :: cs)[0]? == some ',' && (behind n ((c :: cs).take 0)).isTop ',') =
          false := by
        rw [← Bool.not_eq_true]
        intro hfirst
        obtain ⟨hc, htop⟩ := Bool.and_eq_true_iff.mp hfirst
        obtain rfl : c = ',' := Option.some.inj (beq_iff_eq.mp hc)
        exact hcomma (Bool.and_eq_true_iff.mpr ⟨htop, rfl⟩)
      rw [hfirst, extend_eq_modifyHead (commaParts_ne_nil _ _), List.length_modifyHead, ← hlater]
      rfl

/-- A text cut at its commas: each part has none, and nothing is open behind it. -/
inductive Cut : Nesting → List Char → List (List Char) → Prop
  | last {n : Nesting} {part : List Char} : CommaFree n part → run? n part = some (outside 0) →
      Cut n part [part]
  | comma {n : Nesting} {part rest : List Char} {parts : List (List Char)} : CommaFree n part →
      run? n part = some (outside 0) → Cut (outside 0) rest parts →
      Cut n (part ++ ',' :: rest) (part :: parts)

theorem CommaFree.cons {c : Char} (hc : ¬(n.isTop c && c == ',') = true)
    (h : CommaFree (n.next c) cs) : CommaFree n (c :: cs) := by
  intro a b hs
  cases a with
  | nil =>
    cases hs
    simpa using hc
  | cons e a =>
    cases hs
    exact h a b rfl

theorem cut_commaParts (h : run? n cs = some (outside 0)) : Cut n cs (commaParts n cs) := by
  induction cs generalizing n with
  | nil => exact .last (commaFree_of_notMem List.not_mem_nil) h
  | cons c cs ih =>
    obtain ⟨m, hm, hrest⟩ := Option.bind_eq_some_iff.mp h
    have hnext : n.next c = m := by rw [next, hm, Option.getD_some]
    rw [commaParts]
    split
    · next hcomma =>
      obtain ⟨htop, hc⟩ := Bool.and_eq_true_iff.mp hcomma
      obtain rfl := beq_iff_eq.mp hc
      obtain rfl := isTop_comma.mp htop
      cases hm
      exact @Cut.comma _ [] _ _ (commaFree_of_notMem List.not_mem_nil) rfl (ih hrest)
    · next hcomma =>
      have hrun {part : List Char} (hpart : run? m part = some (outside 0)) :
          run? n (c :: part) = some (outside 0) := by
        rw [run?, hm]
        exact hpart
      rw [hnext]
      have hcut := ih hrest
      generalize commaParts m cs = parts at hcut
      subst hnext
      cases hcut with
      | last hfree hpart => exact .last (hfree.cons hcomma) (hrun hpart)
      | comma hfree hpart htail =>
        exact @Cut.comma _ (c :: _) _ _ (hfree.cons hcomma) (hrun hpart) htail

theorem isItem_trim (hfree : CommaFree (outside 0) cs) (h : Balanced cs) : IsItem (trim cs) := by
  obtain ⟨g, g', hg, -, htrimmed, hcs⟩ := exists_trim cs
  refine ⟨htrimmed, balanced_trim.mpr h, fun a b hs => ?_⟩
  have hplace := hfree (g ++ a) (b ++ g') (by rw [hcs, hs]; simp)
  rwa [behind_append, (balanced_gap hg).behind_eq] at hplace

theorem Cut.lists (h : Cut (outside 0) cs parts) :
    Lists cs (parts.map trim) ∧ ∀ part ∈ parts.map trim, IsItem part := by
  generalize hn : outside 0 = n at h
  induction h with
  | @last n part hfree hpart =>
    subst hn
    obtain ⟨g, g', hg, hg', -, hcs⟩ := exists_trim part
    refine ⟨?_, List.forall_mem_singleton.mpr (isItem_trim hfree (balanced_iff.mpr hpart))⟩
    have hlast : Lists (g ++ trim part ++ g') [trim part] := .last hg hg'
    rwa [← hcs] at hlast
  | @comma n part rest parts hfree hpart _ ih =>
    subst hn
    obtain ⟨g, g', hg, hg', -, hcs⟩ := exists_trim part
    obtain ⟨hrest, hitems⟩ := ih rfl
    refine ⟨?_, List.forall_mem_cons.mpr ⟨isItem_trim hfree (balanced_iff.mpr hpart), hitems⟩⟩
    have hcomma : Lists (g ++ trim part ++ g' ++ ',' :: rest) (trim part :: parts.map trim) :=
      .comma hg hg' hrest
    rwa [← hcs] at hcomma

theorem Lists.commaParts (h : Lists cs parts) (hitems : ∀ part ∈ parts, IsItem part) :
    Balanced cs ∧ (commaParts (outside 0) cs).map trim = parts := by
  induction h with
  | @last g item h hg hh =>
    have hitem := hitems item List.mem_cons_self
    refine ⟨((balanced_gap hg).append hitem.balanced).append (balanced_gap hh), ?_⟩
    rw [commaParts_of_commaFree (hitem.commaFree_between hg hh), List.map_singleton,
      trim_between hg hitem.trimmed hh]
  | @comma g item h rest items hg hh _ ih =>
    obtain ⟨hitem, hrest⟩ := List.forall_mem_cons.mp hitems
    obtain ⟨hbalanced, hparts⟩ := ih hrest
    have hfront := ((balanced_gap hg).append hitem.balanced).append (balanced_gap hh)
    constructor
    · exact hfront.append (Balanced.append (a := [',']) (by decide) hbalanced)
    · rw [commaParts_comma (hitem.commaFree_between hg hh) hfront, List.map_cons, hparts,
        trim_between hg hitem.trimmed hh]

theorem isItem_iff {item : List Char} :
    IsItem item ↔ IsTrimmed item ∧ Balanced item ∧ commaPlaces item = [] :=
  ⟨fun h => ⟨h.trimmed, h.balanced, (commaFree_iff h.balanced).mp h.commaFree⟩,
    fun h => ⟨h.1, h.2.1, (commaFree_iff h.2.1).mpr h.2.2⟩⟩

theorem splitCommas_eq_ok_iff {clause : Clause} : splitCommas clause cs = .ok parts ↔
    Balanced cs ∧ (commaParts (outside 0) cs).map trim = parts := by
  unfold splitCommas
  constructor
  · intro h
    cases hcheck : check (outside 0) cs with
    | ok u =>
      rw [requireBalance_of_balanced hcheck] at h
      exact ⟨hcheck, Except.ok.inj h⟩
    | error i =>
      rw [requireBalance, hcheck] at h
      cases h
  · rintro ⟨hbalanced, rfl⟩
    rw [requireBalance_of_balanced hbalanced]
    rfl

/-- A text is split into given parts exactly when it lists them and each is an item, that is a
trimmed balanced text without a comma outside quotes and parentheses. The texts that can be split
are the balanced ones, and they have one part more than such commas. -/
theorem splitCommas_lists (clause : Clause) (cs : List Char) :
    (∀ parts, splitCommas clause cs = .ok parts ↔ Lists cs parts ∧
      ∀ part ∈ parts, IsTrimmed part ∧ Balanced part ∧ commaPlaces part = []) ∧
    ((∃ parts, splitCommas clause cs = .ok parts) ↔ Balanced cs) ∧
    ∀ parts, splitCommas clause cs = .ok parts →
      parts.length = (commaPlaces cs).length + 1 := by
  simp only [splitCommas_eq_ok_iff, ← isItem_iff]
  refine ⟨fun parts => ⟨?_, ?_⟩, ?_, ?_⟩
  · rintro ⟨hbalanced, rfl⟩
    exact (cut_commaParts (balanced_iff.mp hbalanced)).lists
  · rintro ⟨hlists, hitems⟩
    exact hlists.commaParts hitems
  · exact ⟨fun ⟨_, hbalanced, _⟩ => hbalanced, fun hbalanced => ⟨_, hbalanced, rfl⟩⟩
  · rintro parts ⟨hbalanced, rfl⟩
    rw [List.length_map, length_commaParts, commaPlaces, List.countP_eq_length_filter]
    refine congrArg (List.length · + 1) (List.filter_congr fun i _ => ?_)
    rw [Bool.eq_iff_iff, Bool.and_eq_true, beq_iff_eq, isTop_take_iff hbalanced]
    simp

/-- Commas in quotes and parentheses cut nothing, and a part may be empty. -/
example : (splitCommas .select " a ,, 'b,''c' , d(e,(f))".toList).toOption =
    some ["a".toList, [], "'b,''c'".toList, "d(e,(f))".toList] ∧
      commaPlaces " a ,, 'b,''c' , d(e,(f))".toList = [3, 4, 14] := by
  decide +kernel

end TableQuery.Nesting
