import TableQuery.Filter.Parse
import TableQuery.Proofs.Data.Success
import TableQuery.Proofs.Text.Word
import Mathlib.Data.List.Forall2

/-! # Parsed filters

Every token that is found in a comparison stands in the table of operators, and the list of
conditions is always one longer than the list of the words between them. So a filter is
parsed exactly where it is read, and what is wrong with its text is a fault of the text.
-/
namespace TableQuery
open Text

namespace Operator

theorem squeeze_cons {c : Char} (h : isBlank c = false) (inRun : Bool) (rest : List Char) :
    squeeze inRun (c :: rest) = c :: squeeze false rest := by
  rw [squeeze, h]
  rfl

theorem squeeze_word {w : List Char} (h : ∀ c ∈ w, isBlank c = false) (rest : List Char) :
    squeeze false (w ++ rest) = w ++ squeeze false rest := by
  induction w with
  | nil => rfl
  | cons c w ih =>
    rw [List.cons_append, squeeze_cons (h c List.mem_cons_self),
      ih fun d hd => h d (List.mem_cons_of_mem _ hd)]
    rfl

theorem squeeze_gap {g : List Char} (h : IsGap g) (rest : List Char) :
    squeeze true (g ++ rest) = squeeze true rest := by
  induction g with
  | nil => rfl
  | cons c g ih =>
    obtain ⟨hc, hg⟩ := isGap_cons.mp h
    rw [List.cons_append, squeeze, hc]
    exact ih hg

theorem squeeze_capital {w : List Char} (h : IsCapital w) : squeeze false w = w := by
  have hword := squeeze_word (fun c hc => not_isBlank_of_isNameChar (h.isNameChar c hc)) []
  rwa [List.append_nil, squeeze, List.append_nil] at hword

theorem squeeze_two {w g v : List Char} (hw : IsCapital w) (hv : IsCapital v) (hvn : v ≠ [])
    (hg : IsGap g) (hgn : g ≠ []) : squeeze false (w ++ (g ++ v)) = w ++ ' ' :: v := by
  rw [squeeze_word fun c hc => not_isBlank_of_isNameChar (hw.isNameChar c hc)]
  cases g with
  | nil => exact absurd rfl hgn
  | cons b g =>
    obtain ⟨hb, hg⟩ := isGap_cons.mp hg
    have hgap : squeeze false (b :: (g ++ v)) = ' ' :: squeeze true v := by
      rw [squeeze, hb, ← squeeze_gap hg v]
      rfl
    cases v with
    | nil => exact absurd rfl hvn
    | cons c v =>
      have hc : isBlank c = false := not_isBlank_of_isNameChar (hv.isNameChar c List.mem_cons_self)
      rw [List.cons_append, hgap, squeeze_cons hc, ← squeeze_cons hc false, squeeze_capital hv]

theorem ofToken_of_word {w a : List Char} (hw : IsCapital w) (ha : a.map Char.toUpper = w)
    {found : Operator × Bool} (h : tokens.lookup (String.ofList w) = some found) :
    ofToken a = .ok found := by
  rw [ofToken, upper_of_map_toUpper hw ha, squeeze_capital hw, h]

theorem ofToken_of_two {w v n g a : List Char} (hw : IsCapital w) (hv : IsCapital v)
    (hvn : v ≠ []) (hn : n.map Char.toUpper = w) (hg : IsGap g) (hgn : g ≠ [])
    (ha : a.map Char.toUpper = v) {found : Operator × Bool}
    (h : tokens.lookup (String.ofList (w ++ ' ' :: v)) = some found) :
    ofToken (n ++ (g ++ a)) = .ok found := by
  have hupper : upper (n ++ (g ++ a)) = w ++ (g ++ v) := by
    unfold upper
    rw [List.flatMap_append, List.flatMap_append]
    exact congrArg₂ _ (upper_of_map_toUpper hw hn)
      (congrArg₂ _ (upper_gap hg) (upper_of_map_toUpper hv ha))
  rw [ofToken, hupper, squeeze_two hw hv hvn hg hgn, h]

end Operator

theorem rel_findSome? {α β γ δ : Type} {r : γ → δ → Prop} {f : α → Option γ} {g : β → Option δ}
    {xs : List α} {ys : List β} (h : List.Forall₂ (fun x y => Option.Rel r (f x) (g y)) xs ys) :
    Option.Rel r (xs.findSome? f) (ys.findSome? g) := by
  induction h with
  | nil => exact .none
  | @cons x y xs ys hxy _ ih =>
    rw [List.findSome?_cons, List.findSome?_cons]
    generalize f x = a at hxy
    generalize g y = b at hxy
    cases hxy with
    | none => exact ih
    | some hr => exact .some hr

namespace Condition

/-- A token and the operator found with it, each with the text behind it. -/
def Denotes (found : List Char × List Char) (operator : Operator × Bool × List Char) : Prop :=
  operator.2.2 = found.2 ∧ Operator.ofToken found.1 = .ok (operator.1, operator.2.1)

theorem rel_sign {token : List Char} {operator : Operator}
    (h : Operator.ofToken token = .ok (operator, false)) (rest : List Char) :
    Option.Rel Denotes (some (token, rest)) (some (operator, false, rest)) := .some ⟨rfl, h⟩

theorem signToken?_greater {rest : List Char} (h : rest.head? ≠ some '=') :
    signToken? ('>' :: rest) = some (['>'], rest) := by
  cases rest with
  | nil => rfl
  | cons c rest =>
    have hc : '=' ≠ c := fun e => h (congrArg some e.symm)
    simp [signToken?, signTokens, List.isPrefixOf?, hc]

theorem signToken?_less {rest : List Char} (he : rest.head? ≠ some '=')
    (hg : rest.head? ≠ some '>') : signToken? ('<' :: rest) = some (['<'], rest) := by
  cases rest with
  | nil => rfl
  | cons c rest =>
    have hc : '=' ≠ c := fun e => he (congrArg some e.symm)
    have hd : '>' ≠ c := fun e => hg (congrArg some e.symm)
    simp [signToken?, signTokens, List.isPrefixOf?, hc, hd]

theorem signToken?_rel (cs : List Char) : Option.Rel Denotes (signToken? cs)
    ((signs? cs).map fun (operator, rest) => (operator, false, rest)) := by
  unfold signs?
  split
  · exact rel_sign (by decide) _
  · exact rel_sign (by decide) _
  · exact rel_sign (by decide) _
  · exact rel_sign (by decide) _
  · next rest hequal =>
    have he : rest.head? ≠ some '=' := fun h =>
      have ⟨rest', hrest⟩ := List.head?_eq_some_iff.mp h
      hequal rest' (by rw [hrest])
    rw [signToken?_greater he]
    exact rel_sign (by decide) _
  · next rest hequal hgreater =>
    have he : rest.head? ≠ some '=' := fun h =>
      have ⟨rest', hrest⟩ := List.head?_eq_some_iff.mp h
      hequal rest' (by rw [hrest])
    have hg : rest.head? ≠ some '>' := fun h =>
      have ⟨rest', hrest⟩ := List.head?_eq_some_iff.mp h
      hgreater rest' (by rw [hrest])
    rw [signToken?_less he hg]
    exact rel_sign (by decide) _
  · exact rel_sign (by decide) _
  · next _ _ hunlike _ hgreater hless hequal =>
    have hnone : signToken? cs = none := by
      cases cs with
      | nil => rfl
      | cons c rest =>
        have hg : '>' ≠ c := fun e => hgreater rest (by rw [e])
        have hl : '<' ≠ c := fun e => hless rest (by rw [e])
        have he : '=' ≠ c := fun e => hequal rest (by rw [e])
        cases rest with
        | nil => simp [signToken?, signTokens, List.isPrefixOf?, hg, hl, he]
        | cons d rest =>
          have hn : '!' = c → '=' ≠ d := fun hc hd => hunlike rest (by rw [hc, hd])
          simpa [signToken?, signTokens, List.isPrefixOf?, hg, hl, he] using hn
    rw [hnone]
    exact .none

/-- A word that ends with a token, where the text in front of what follows is that token. -/
theorem rel_word (cs : List Char) (found : Option (List Char)) (operator : Operator)
    (negated : Bool) :
    (∀ rest, found = some rest →
      ∃ token, cs = token ++ rest ∧ Operator.ofToken token = .ok (operator, negated)) →
    Option.Rel Denotes
      (match found with
        | some rest =>
          if patternWordEnds rest then some (cs.take (cs.length - rest.length), rest) else none
        | none => none)
      (match found with
        | some rest => if patternWordEnds rest then some (operator, negated, rest) else none
        | none => none) := by
  intro h
  cases found with
  | none => exact .none
  | some rest =>
    obtain ⟨token, rfl, htoken⟩ := h rest rfl
    dsimp only
    cases patternWordEnds rest with
    | false => exact .none
    | true =>
      have htake : (token ++ rest).take ((token ++ rest).length - rest.length) = token := by simp
      rw [htake]
      exact .some ⟨rfl, htoken⟩

theorem exists_token_of_word {cs w rest : List Char} {found : Operator × Bool}
    (hw : IsCapital w) (htable : Operator.tokens.lookup (String.ofList w) = some found)
    (h : (some cs).bind (word? w) = some rest) :
    ∃ token, cs = token ++ rest ∧ Operator.ofToken token = .ok found := by
  obtain ⟨a, hcs, ha⟩ := word?_eq_some_iff.mp h
  exact ⟨a, hcs, Operator.ofToken_of_word hw ha htable⟩

theorem exists_token_of_negated {cs w rest : List Char} {found : Operator × Bool}
    (hw : IsCapital w) (hne : w ≠ [])
    (htable : Operator.tokens.lookup (String.ofList ("NOT".toList ++ ' ' :: w)) = some found)
    (h : ((word? "NOT".toList cs).bind blanks?).bind (word? w) = some rest) :
    ∃ token, cs = token ++ rest ∧ Operator.ofToken token = .ok found := by
  obtain ⟨behind, hbehind, hword⟩ := Option.bind_eq_some_iff.mp h
  obtain ⟨blank, hnot, hblank⟩ := Option.bind_eq_some_iff.mp hbehind
  obtain ⟨n, rfl, hn⟩ := word?_eq_some_iff.mp hnot
  obtain ⟨-, g, hgn, hg, rfl⟩ := blanks?_eq_some hblank
  obtain ⟨a, rfl, ha⟩ := word?_eq_some_iff.mp hword
  refine ⟨n ++ (g ++ a), by simp, ?_⟩
  exact Operator.ofToken_of_two (by decide) hw hne hn hg hgn ha htable

theorem wordToken?_rel (cs : List Char) :
    Option.Rel Denotes (wordToken? cs) (patternWord? cs) := by
  let negatedRest := (word? "NOT".toList cs).bind blanks?
  apply rel_findSome?
  refine .cons ?_ (.cons ?_ (.cons ?_ (.cons ?_ .nil)))
  · exact rel_word cs (negatedRest.bind (word? "ILIKE".toList)) .ilike true fun _ h =>
      exists_token_of_negated (by decide) (by decide) (by decide) h
  · exact rel_word cs (negatedRest.bind (word? "LIKE".toList)) .like true fun _ h =>
      exists_token_of_negated (by decide) (by decide) (by decide) h
  · exact rel_word cs ((some cs).bind (word? "ILIKE".toList)) .ilike false fun _ h =>
      exists_token_of_word (by decide) (by decide) h
  · exact rel_word cs ((some cs).bind (word? "LIKE".toList)) .like false fun _ h =>
      exists_token_of_word (by decide) (by decide) h

theorem tokenAt?_rel (start : Bool) (cs : List Char) :
    Option.Rel Denotes (tokenAt? start cs) (operatorAt? start cs) := by
  have hsign := signToken?_rel cs
  unfold tokenAt? operatorAt?
  cases hs : signs? cs with
  | some found =>
    rw [hs] at hsign
    generalize signToken? cs = token at hsign
    cases hsign with
    | some h => exact .some h
  | none =>
    rw [hs] at hsign
    generalize signToken? cs = token at hsign
    cases hsign with
    | none =>
      cases start with
      | false => exact .none
      | true => exact wordToken?_rel cs

theorem cutAtToken?_rel (n : Nesting) (start : Bool) (cs : List Char) :
    Option.Rel (fun found cut => cut.1 = found.1 ∧ Denotes found.2 cut.2)
      (cutAtToken? n start cs) (cutAtOperator? n start cs) := by
  induction cs generalizing n start with
  | nil => exact .none
  | cons c rest ih =>
    have hat : Option.Rel Denotes (if n.isTop c then tokenAt? start (c :: rest) else none)
        (if n.isTop c then operatorAt? start (c :: rest) else none) := by
      cases n.isTop c with
      | false => exact .none
      | true => exact tokenAt?_rel start (c :: rest)
    rw [cutAtToken?, cutAtOperator?]
    generalize (if n.isTop c then tokenAt? start (c :: rest) else none) = found at hat
    generalize (if n.isTop c then operatorAt? start (c :: rest) else none) = cut at hat
    cases hat with
    | some h => exact .some ⟨rfl, h⟩
    | none =>
      have hrest := ih (n.next c) (isBlank c)
      dsimp only
      generalize cutAtToken? (n.next c) (isBlank c) rest = found at hrest
      generalize cutAtOperator? (n.next c) (isBlank c) rest = cut at hrest
      cases hrest with
      | none => exact .none
      | some h => exact .some ⟨congrArg (c :: ·) h.1, h.2⟩

theorem parseComparison_eq (cs : List Char) : parseComparison cs = readComparison cs := by
  have hcut := cutAtToken?_rel (.outside 0) true cs
  unfold parseComparison readComparison
  generalize cutAtToken? (.outside 0) true cs = found at hcut
  generalize cutAtOperator? (.outside 0) true cs = cut at hcut
  cases hcut with
  | none => rfl
  | @some found cut h =>
    obtain ⟨before, token, behind⟩ := found
    obtain ⟨before', operator, negated, behind'⟩ := cut
    obtain ⟨rfl, rfl, htoken⟩ := h
    dsimp only
    rw [htoken]
    rfl

theorem parse_eq_read (cs : List Char) : parse cs = read cs := by
  unfold parse read
  dsimp only
  rw [parseComparison_eq]

end Condition

namespace Filter

theorem mapM_chain (read : List Char → Except Fault Condition)
    (rest : List (Combinator × List Char)) :
    (rest.mapM fun (combinator, text) => (read text).map (combinator, ·)) =
      ((rest.map (·.2)).mapM read).map fun conditions => (rest.map (·.1)).zip conditions := by
  induction rest with
  | nil => rfl
  | cons entry rest ih =>
    obtain ⟨combinator, text⟩ := entry
    rw [List.mapM_cons, ih, List.map_cons, List.map_cons, List.mapM_cons]
    dsimp only
    cases read text with
    | error fault => rfl
    | ok condition => cases (rest.map (·.2)).mapM read <;> rfl

theorem parse_eq_read (cs : List Char) : parse cs = (read cs).mapError .fault := by
  have hparse : Condition.parse = Condition.read := funext Condition.parse_eq_read
  unfold parse read splitLists
  rw [hparse]
  dsimp only
  generalize trim cs = text
  cases text.isEmpty with
  | true => rfl
  | false =>
    simp only [Bool.false_eq_true, ↓reduceIte]
    cases splitConditions text with
    | error fault => rfl
    | ok parts =>
      obtain ⟨first, rest⟩ := parts
      dsimp only [Except.map, Except.mapError, bind, Except.bind]
      rw [List.mapM_cons]
      have hchain := mapM_chain Condition.read rest
      dsimp only [Except.map] at hchain
      rw [hchain]
      cases Condition.read first with
      | error fault => rfl
      | ok condition =>
        dsimp only [Except.map, Except.mapError, bind, Except.bind]
        cases hread : (rest.map (·.2)).mapM Condition.read with
        | error fault => rfl
        | ok conditions =>
          have hlength : (rest.map (·.1)).length = conditions.length := by
            rw [Success.length_of_mapM hread, List.length_map, List.length_map]
          dsimp only [Except.map, Except.mapError, bind, Except.bind, pure, Except.pure, ofLists]
          rw [if_pos hlength]

theorem parse_eq_ok_iff {cs : List Char} {f : Filter} : parse cs = .ok f ↔ read cs = .ok f := by
  rw [parse_eq_read]
  cases read cs <;> simp [Except.mapError]

end Filter
end TableQuery
