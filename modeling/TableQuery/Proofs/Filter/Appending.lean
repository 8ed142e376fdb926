import TableQuery.Proofs.Filter.CompiledPattern
import TableQuery.Proofs.Filter.ParsedFilter
import TableQuery.Proofs.Filter.StandingWords

/-! # Appending a condition

A condition that is written behind a filter and a connective is added to the filter, and the
connective joins the results of both. Only where a BETWEEN still waits for its AND does an AND
not join anything: it is taken for a part of the last condition.
-/
namespace TableQuery.Filter
open Text Nesting

/-- Whether the last BETWEEN that stands in a text has no AND behind it. -/
def Pending (cs : List Char) : Prop :=
  ((standing (.outside 0) true (trim cs)).filter (· != .joins .or)).getLast? = some .between

instance (cs : List Char) : Decidable (Pending cs) := inferInstanceAs (Decidable (_ = _))

theorem waitsBehind_eq_getLast? (waiting : Bool) (words : List Connective) :
    waitsBehind waiting words =
      ((words.filter (· != .joins .or)).getLast?.map (· == .between)).getD waiting := by
  induction words generalizing waiting with
  | nil => rfl
  | cons word words ih =>
    have hbehind : waitsBehind waiting (word :: words) = waitsBehind (word.after waiting) words :=
      rfl
    rw [hbehind, ih]
    cases word with
    | between =>
      rw [List.filter_cons_of_pos (by decide), getLast?_cons_getD]
      rfl
    | joins combinator =>
      cases combinator with
      | and =>
        rw [List.filter_cons_of_pos (by decide), getLast?_cons_getD]
        rfl
      | or =>
        rw [List.filter_cons_of_neg (by decide)]
        rfl

theorem pending_iff {cs : List Char} :
    Pending cs ↔ waitsBehind false (standing (.outside 0) true (trim cs)) = true := by
  rw [waitsBehind_eq_getLast?, Pending]
  cases ((standing (.outside 0) true (trim cs)).filter (· != .joins .or)).getLast? with
  | none => simp
  | some word => cases word <;> simp

/-- The text of the first condition and those of the others, each behind its combinator. -/
def pieces (cs : List Char) : List Char × List (Combinator × List Char) :=
  cutWords findConnective (.outside 0) true 0 false cs

def trimmed (cuts : List (Combinator × List Char)) : List (Combinator × List Char) :=
  cuts.map fun (combinator, text) => (combinator, trim text)

theorem splitConditions_of_balanced {cs : List Char} (h : Balanced cs) :
    splitConditions cs = .ok (trim (pieces cs).1, trimmed (pieces cs).2) := by
  rw [splitConditions, requireBalance_of_balanced h]
  rfl

/-- A filter is read where its text is balanced and each of its pieces is a condition. -/
theorem read_eq_ok_iff {cs : List Char} {f : Filter} : read cs = .ok f ↔
    trim cs ≠ [] ∧ Balanced (trim cs) ∧ ∃ first rest,
      Condition.read (trim (pieces (trim cs)).1) = .ok first ∧
      ((trimmed (pieces (trim cs)).2).mapM fun (combinator, text) =>
        (Condition.read text).map (combinator, ·)) = .ok rest ∧ f = .chain first rest := by
  unfold read
  dsimp only
  generalize trim cs = text
  constructor
  · intro h
    split at h
    · cases h
    · next hempty =>
      obtain ⟨⟨first, rest⟩, hsplit, h⟩ := Success.of_bind h
      obtain ⟨u, hbalance, hpieces⟩ := Success.of_bind hsplit
      cases Except.ok.inj hpieces
      obtain ⟨first, hfirst, h⟩ := Success.of_bind h
      obtain ⟨rest, hrest, h⟩ := Success.of_bind h
      refine ⟨fun hnil => hempty (by rw [hnil]; rfl), Success.of_mapError hbalance, first, rest,
        hfirst, hrest, (Except.ok.inj h).symm⟩
  · rintro ⟨hne, hbalanced, first, rest, hfirst, hrest, rfl⟩
    have hempty : text.isEmpty = false := by simpa using hne
    have hsplit := splitConditions_of_balanced hbalanced
    simp only [hempty, Bool.false_eq_true, ↓reduceIte, hsplit, bind, Except.bind, hfirst, hrest]
    rfl

theorem length_conditions_chain (first : Condition) (rest : List (Combinator × Condition)) :
    (chain first rest).conditions.length = rest.length + 1 := by
  simp [conditions]

theorem length_of_read {cs : List Char} {f : Filter} (h : read cs = .ok f) :
    f.conditions.length = (pieces (trim cs)).2.length + 1 := by
  obtain ⟨-, -, first, rest, -, hrest, rfl⟩ := read_eq_ok_iff.mp h
  rw [length_conditions_chain, Success.length_of_mapM hrest, trimmed, List.length_map]

theorem accepts_append (row : Row) (first : Condition) (rest : List (Combinator × Condition))
    (combinator : Combinator) (c : Condition) :
    (chain first (rest ++ [(combinator, c)])).accepts row =
      combinator.apply ((chain first rest).accepts row) ((chain c []).accepts row) := by
  simp [accepts, List.foldl_append]

/-- A gap in front of the next cut belongs to the last piece, which is trimmed. -/
theorem trim_joinCuts {g : List Char} (hg : IsGap g) (text : List Char)
    (cuts next : List (Combinator × List Char)) :
    trim (joinCuts text cuts (g, next)).1 = trim text ∧
      trimmed (joinCuts text cuts (g, next)).2 = trimmed cuts ++ trimmed next := by
  induction cuts generalizing text with
  | nil => exact ⟨trim_append_gap hg text, rfl⟩
  | cons cut cuts ih =>
    obtain ⟨key, second⟩ := cut
    obtain ⟨hsecond, hrest⟩ := ih second
    refine ⟨rfl, ?_⟩
    have hcons : trimmed (joinCuts text ((key, second) :: cuts) (g, next)).2 =
        (key, trim (joinCuts second cuts (g, next)).1) ::
          trimmed (joinCuts second cuts (g, next)).2 := rfl
    rw [hcons, hsecond, hrest]
    rfl

theorem length_joinCuts {κ : Type} (text : List Char) (cuts : List (κ × List Char))
    (next : List Char × List (κ × List Char)) :
    (joinCuts text cuts next).2.length = cuts.length + next.2.length := by
  induction cuts generalizing text with
  | nil => simp [joinCuts]
  | cons cut cuts ih =>
    simp only [joinCuts, List.length_cons, ih]
    omega

/-- What stands behind a text: blanks, a connective, and the text of a condition. -/
def tail (g : List Char) (combinator : Combinator) (h c : List Char) : List Char :=
  (g ++ [' ']) ++ (combinator.name.toList ++ ' ' :: (h ++ c))

theorem cutWords_condition {h c : List Char} (hh : IsGap h)
    (hc : cutsAt false (standing (.outside 0) true c) = []) (start waiting : Bool) :
    cutWords findConnective (.outside 0) start 0 waiting (' ' :: (h ++ c)) =
      (' ' :: (h ++ c), []) := by
  have hgap : IsGap (' ' :: h) := isGap_cons.mpr ⟨rfl, hh⟩
  have hstanding := standing_gap hgap start c
  rw [startBehind_gap hgap (by simp)] at hstanding
  apply cutWords_of_cutsAt
  rw [← List.cons_append, hstanding]
  cases waiting with
  | false => exact hc
  | true => exact cutsAt_waiting hc

theorem cutWords_tail {g h c : List Char} (hg : IsGap g) (combinator : Combinator)
    (start waiting : Bool) :
    cutWords findConnective (.outside 0) start 0 waiting (tail g combinator h c) =
      (g ++ [' '] ++ (cutWords findConnective (.outside 0) true 0 waiting
          (combinator.name.toList ++ ' ' :: (h ++ c))).1,
        (cutWords findConnective (.outside 0) true 0 waiting
          (combinator.name.toList ++ ' ' :: (h ++ c))).2) := by
  have hgap : IsGap (g ++ [' ']) := isGap_append.mpr ⟨hg, isGap_space⟩
  have hpass : Passes findConnective waiting waiting (combinator.name.toList ++ ' ' :: (h ++ c))
      start (g ++ [' ']) := passes_gap (findConnective_blank waiting) hgap
  rw [Passes, startBehind_gap hgap (by simp)] at hpass
  exact hpass

section
variable {g h c : List Char} (hg : IsGap g) (hh : IsGap h)
  (hc : cutsAt false (standing (.outside 0) true c) = [])
include hg hh hc

theorem cutWords_tail_joins {combinator : Combinator} {waiting : Bool}
    (hcut : Connective.cut? waiting (.joins combinator) = some combinator) (start : Bool) :
    cutWords findConnective (.outside 0) start 0 waiting (tail g combinator h c) =
      (g ++ [' '], [(combinator, ' ' :: (h ++ c))]) := by
  rw [cutWords_tail hg, cutWords_joins hcut, cutWords_condition hh hc, List.append_nil]

theorem cutWords_tail_waiting (start : Bool) :
    (cutWords findConnective (.outside 0) start 0 true (tail g .and h c)).2 = [] := by
  have hpass : Passes findConnective true false (' ' :: (h ++ c)) true "AND".toList :=
    passes_of_keep (by decide) (by decide) (findConnective_waiting (h ++ c))
  have hand : cutWords findConnective (.outside 0) true 0 true
      (Combinator.and.name.toList ++ ' ' :: (h ++ c)) = _ := hpass
  rw [cutWords_tail hg, hand, cutWords_condition hh hc]

end

theorem wordEnds_tail {g : List Char} (hg : IsGap g) (combinator : Combinator)
    (h c : List Char) : wordEnds (tail g combinator h c) = true :=
  wordEnds_gap_append (isGap_append.mpr ⟨hg, isGap_space⟩) (by simp) _

theorem pieces_tail {w g : List Char} (hw : Balanced w) (hg : IsGap g) (combinator : Combinator)
    (h c : List Char) :
    pieces (w ++ tail g combinator h c) = joinCuts (pieces w).1 (pieces w).2
      (cutWords findConnective (.outside 0) (startBehind true w) 0
        (waitsBehind false (standing (.outside 0) true w)) (tail g combinator h c)) := by
  have hbehind : behind (.outside 0) w = .outside 0 := hw.behind_eq
  rw [pieces, cutWords_append (wordEnds_tail hg combinator h c), hbehind]
  rfl

/-- The pieces in front of a cut stay as they are, and the condition behind it is one more. -/
theorem trimmed_pieces_tail {w g h c : List Char} {combinator : Combinator} (hw : Balanced w)
    (hg : IsGap g) (hh : IsGap h) (hc : cutsAt false (standing (.outside 0) true c) = [])
    (hcut : Connective.cut? (waitsBehind false (standing (.outside 0) true w))
      (.joins combinator) = some combinator) (hctrimmed : IsTrimmed c) :
    trim (pieces (w ++ tail g combinator h c)).1 = trim (pieces w).1 ∧
      trimmed (pieces (w ++ tail g combinator h c)).2 =
        trimmed (pieces w).2 ++ [(combinator, c)] := by
  have hcondition : trim (' ' :: (h ++ c)) = c := by
    have htrim := trim_between (isGap_cons.mpr ⟨rfl, hh⟩ : IsGap (' ' :: h)) hctrimmed isGap_nil
    rwa [List.append_nil] at htrim
  have hlast : trimmed [(combinator, ' ' :: (h ++ c))] = [(combinator, c)] :=
    congrArg (fun text => [(combinator, text)]) hcondition
  rw [pieces_tail hw hg, cutWords_tail_joins hg hh hc hcut, ← hlast]
  exact trim_joinCuts (isGap_append.mpr ⟨hg, isGap_space⟩) _ _ _

theorem balanced_tail {g h c : List Char} (hg : IsGap g) (hh : IsGap h) (hc : Balanced c)
    (combinator : Combinator) : Balanced (tail g combinator h c) := by
  have hname : Balanced combinator.name.toList := by cases combinator <;> decide
  have hspace : Balanced (' ' :: (h ++ c)) :=
    Balanced.append (a := ' ' :: h) (balanced_gap (isGap_cons.mpr ⟨rfl, hh⟩)) hc
  exact (balanced_gap (isGap_append.mpr ⟨hg, isGap_space⟩)).append (hname.append hspace)

theorem exists_tail {w c : List Char} (hw : trim w ≠ []) (hc : trim c ≠ [])
    (combinator : Combinator) : ∃ g h, IsGap g ∧ IsGap h ∧
      trim (w ++ ' ' :: (combinator.name.toList ++ ' ' :: c)) =
        trim w ++ tail g combinator h (trim c) := by
  obtain ⟨a, g, ha, hg, hwtrimmed, hwsplit⟩ := exists_trim w
  obtain ⟨h, b, hh, hb, hctrimmed, hcsplit⟩ := exists_trim c
  refine ⟨g, h, hg, hh, ?_⟩
  have hlast : (tail g combinator h (trim c)).getLast? = (trim c).getLast? := by
    have hsplit : tail g combinator h (trim c) =
        ((g ++ [' ']) ++ (combinator.name.toList ++ ' ' :: h)) ++ trim c := by simp [tail]
    rw [hsplit, getLast?_of_append hc]
  have hne : tail g combinator h (trim c) ≠ [] := by simp [tail]
  have htrimmed : IsTrimmed (trim w ++ tail g combinator h (trim c)) :=
    hwtrimmed.append hw hne (by rw [hlast]; exact hctrimmed.2)
  have hwhole : w ++ ' ' :: (combinator.name.toList ++ ' ' :: c) =
      a ++ (trim w ++ tail g combinator h (trim c)) ++ b := by
    calc w ++ ' ' :: (combinator.name.toList ++ ' ' :: c)
        = (a ++ trim w ++ g) ++ ' ' :: (combinator.name.toList ++ ' ' :: (h ++ trim c ++ b)) := by
          rw [← hwsplit, ← hcsplit]
      _ = a ++ (trim w ++ tail g combinator h (trim c)) ++ b := by simp [tail]
  rw [hwhole, trim_between ha htrimmed hb]

/-- Whether a condition that is written behind a filter and a connective joins it. -/
def Composes (combinator : Combinator) (w c : List Char) (f g : Filter) : Prop :=
  ∃ h, parse (w ++ ' ' :: (combinator.name.toList ++ ' ' :: c)) = .ok h ∧
    h.conditions.length = f.conditions.length + 1 ∧
    ∀ row, ∃ a b, f.evaluate row = .ok a ∧ g.evaluate row = .ok b ∧
      h.evaluate row = .ok (combinator.apply a b)

theorem uncut_of_read {c : List Char} {g : Filter} (hc : read c = .ok g)
    (hone : g.conditions.length = 1) :
    cutsAt false (standing (.outside 0) true (trim c)) = [] := by
  have hlength := length_of_read hc
  rw [← keys_cutWords, List.map_eq_nil_iff]
  exact List.eq_nil_of_length_eq_zero (by rw [pieces] at hlength; omega)

theorem composes_of_cut {w c : List Char} {f g : Filter} {combinator : Combinator}
    (hw : read w = .ok f) (hc : read c = .ok g) (hone : g.conditions.length = 1)
    (hcut : Connective.cut? (waitsBehind false (standing (.outside 0) true (trim w)))
      (.joins combinator) = some combinator) : Composes combinator w c f g := by
  have huncut := uncut_of_read hc hone
  obtain ⟨hwne, hwbalanced, first, rest, hfirst, hrest, rfl⟩ := read_eq_ok_iff.mp hw
  obtain ⟨hcne, hcbalanced, condition, others, hcondition, -, rfl⟩ := read_eq_ok_iff.mp hc
  have hothers : others = [] := by
    rw [length_conditions_chain] at hone
    exact List.eq_nil_of_length_eq_zero (by omega)
  subst hothers
  have hcpieces : pieces (trim c) = (trim c, []) := cutWords_of_cutsAt huncut
  rw [hcpieces, (isTrimmed_trim c).trim_eq] at hcondition
  obtain ⟨a, b, ha, hb, htext⟩ := exists_tail hwne hcne combinator
  obtain ⟨hpiece, hpieces⟩ :=
    trimmed_pieces_tail hwbalanced ha hb huncut hcut (isTrimmed_trim c)
  refine ⟨.chain first (rest ++ [(combinator, condition)]), parse_eq_ok_iff.mpr
    (read_eq_ok_iff.mpr ⟨?_, ?_, first, rest ++ [(combinator, condition)], ?_, ?_, rfl⟩), ?_,
    fun row => ⟨_, _, evaluate_eq_ok _ row, evaluate_eq_ok _ row, ?_⟩⟩
  · rw [htext]
    simp [hwne]
  · rw [htext]
    exact hwbalanced.append (balanced_tail ha hb hcbalanced combinator)
  · rw [htext, hpiece]
    exact hfirst
  · rw [htext, hpieces, List.mapM_append, hrest]
    simp only [List.mapM_cons, List.mapM_nil, hcondition]
    rfl
  · rw [length_conditions_chain, length_conditions_chain, List.length_append]
    rfl
  · rw [evaluate_eq_ok, accepts_append]

theorem not_composes_of_waiting {w c : List Char} {f g : Filter} (hw : read w = .ok f)
    (hc : read c = .ok g) (hone : g.conditions.length = 1)
    (hwaiting : waitsBehind false (standing (.outside 0) true (trim w)) = true) :
    ¬ Composes .and w c f g := by
  rintro ⟨h, hread, hlength, -⟩
  have huncut := uncut_of_read hc hone
  obtain ⟨hwne, hwbalanced, -⟩ := read_eq_ok_iff.mp hw
  obtain ⟨hcne, -⟩ := read_eq_ok_iff.mp hc
  obtain ⟨a, b, ha, hb, htext⟩ := exists_tail hwne hcne .and
  have hjoined := length_of_read (parse_eq_ok_iff.mp hread)
  have hown := length_of_read hw
  rw [htext, pieces_tail hwbalanced ha, hwaiting, length_joinCuts,
    cutWords_tail_waiting ha hb huncut] at hjoined
  rw [List.length_nil] at hjoined
  omega

/-- Appending a condition composes, but for an AND where a BETWEEN waits for its own. -/
theorem composes_iff {w c : List Char} {f g : Filter} (hw : parse w = .ok f)
    (hc : parse c = .ok g) (hone : g.conditions.length = 1) :
    Composes .or w c f g ∧ (Composes .and w c f g ↔ ¬ Pending w) := by
  rw [parse_eq_ok_iff] at hw hc
  refine ⟨composes_of_cut hw hc hone rfl, ?_, ?_⟩
  · intro hcomposes hpending
    exact not_composes_of_waiting hw hc hone (pending_iff.mp hpending) hcomposes
  · intro hpending
    have hwaiting : waitsBehind false (standing (.outside 0) true (trim w)) = false := by
      rw [← Bool.not_eq_true]
      exact fun hwaits => hpending (pending_iff.mpr hwaits)
    exact composes_of_cut hw hc hone (by rw [hwaiting]; rfl)

theorem exists_of_count (cs : List Char) (n : Nat)
    (h : (parse cs).toOption.map (·.conditions.length) = some n) :
    ∃ f, parse cs = .ok f ∧ f.conditions.length = n := by
  cases hread : parse cs with
  | error fault =>
    rw [hread] at h
    cases h
  | ok f =>
    rw [hread] at h
    exact ⟨f, rfl, Option.some.inj h⟩

theorem composes_iff_between : ∃ f g, parse "n BETWEEN 1 AND 2".toList = .ok f ∧
    parse "x = 'y'".toList = .ok g ∧ g.conditions.length = 1 ∧
    Composes .or "n BETWEEN 1 AND 2".toList "x = 'y'".toList f g ∧
    Composes .and "n BETWEEN 1 AND 2".toList "x = 'y'".toList f g := by
  obtain ⟨f, hf, -⟩ := exists_of_count "n BETWEEN 1 AND 2".toList 1 (by decide +kernel)
  obtain ⟨g, hg, hone⟩ := exists_of_count "x = 'y'".toList 1 (by decide +kernel)
  obtain ⟨hor, hand⟩ := composes_iff hf hg hone
  exact ⟨f, g, hf, hg, hone, hor, hand.mpr (by decide +kernel)⟩

/-- A text without quotes may be the word BETWEEN, which then takes the AND behind it. -/
theorem not_composes : ¬ ∀ (combinator : Combinator) (w c : List Char) (f g : Filter),
    parse w = .ok f → parse c = .ok g → g.conditions.length = 1 → Composes combinator w c f g := by
  intro h
  obtain ⟨f, hf, -⟩ := exists_of_count "x = BETWEEN".toList 1 (by decide +kernel)
  obtain ⟨g, hg, hone⟩ := exists_of_count "y = 1".toList 1 (by decide +kernel)
  have hwaiting : waitsBehind false (standing (.outside 0) true (trim "x = BETWEEN".toList)) =
      true := by decide +kernel
  exact not_composes_of_waiting (parse_eq_ok_iff.mp hf) (parse_eq_ok_iff.mp hg) hone hwaiting
    (h .and _ _ f g hf hg hone)

end TableQuery.Filter
