import TableQuery.Proofs.Filter.WrittenCondition

/-! # Filters as they are written

Conditions joined by AND and OR read back to the chain of these conditions. The words
that join them are the only ones found at the top level, apart from BETWEEN, whose own
AND is passed over; whatever a text literal holds stays hidden in its quotes.
-/
namespace TableQuery.Filter
open Text Nesting Condition

def connectives : List (String × Connective) :=
  [("AND", .joins .and), ("OR", .joins .or), ("BETWEEN", .between)]

/-- One connective at the start of a text, with its length. -/
def connectiveOf? (cs : List Char) (entry : String × Connective) : Option (Connective × Nat) :=
  match word? entry.1.toList cs with
  | some rest => if wordEnds rest then some (entry.2, cs.length - rest.length) else none
  | none => none

theorem connective?_eq (cs : List Char) :
    connective? cs = connectives.findSome? (connectiveOf? cs) := rfl

namespace Connective

/-- Whether a BETWEEN waits for its AND behind a connective. -/
def after (waiting : Bool) : Connective → Bool
  | between => true
  | joins .and => false
  | joins .or => waiting

/-- The combinator at which a text is cut, if the connective cuts it. -/
def cut? (waiting : Bool) : Connective → Option Combinator
  | between => none
  | joins .and => if waiting then none else some .and
  | joins .or => some .or

end Connective

theorem findConnective_eq (waiting : Bool) (cs : List Char) :
    findConnective waiting cs = (connective? cs).map fun (connective, length) =>
      (connective.after waiting, connective.cut? waiting, length) := by
  unfold findConnective
  cases connective? cs with
  | none => rfl
  | some found =>
    obtain ⟨connective, length⟩ := found
    cases connective with
    | between => rfl
    | joins combinator => cases combinator <;> cases waiting <;> rfl

theorem isCapital_connectives : ∀ entry ∈ connectives, IsCapital entry.1.toList := by decide

theorem findConnective_eq_none {cs after : List Char} (hb : ∀ c ∈ cs, isBlank c = false)
    (he : wordEnds after = true)
    (hn : ∀ entry ∈ connectives, cs.map Char.toUpper ≠ entry.1.toList) (waiting : Bool) :
    findConnective waiting (cs ++ after) = none := by
  rw [findConnective, Option.map_eq_none_iff, connective?_eq, List.findSome?_eq_none_iff]
  intro entry hentry
  unfold connectiveOf?
  cases hr : word? entry.1.toList (cs ++ after) with
  | none => rfl
  | some rest =>
    have hend : wordEnds rest = false := by
      rw [← Bool.not_eq_true]
      intro hrest
      exact hn entry hentry (eq_of_wordEnds (isCapital_connectives entry hentry) hb
        (nameEnds_of_wordEnds he) hr hrest)
    simp [hend]

theorem findConnective_blank (waiting : Bool) (c : Char) (cs : List Char)
    (hc : isBlank c = true) : findConnective waiting (c :: cs) = none := by
  have hfirst {x : Char} (hx : x.isUpper = true) : c.toUpper ≠ x := by
    rintro rfl
    rw [toUpper_not_isUpper_of_isBlank hc] at hx
    cases hx
  rw [findConnective, Option.map_eq_none_iff, connective?_eq, List.findSome?_eq_none_iff]
  intro entry hentry
  have hnone : word? entry.1.toList (c :: cs) = none := by
    have hcapital := isCapital_connectives entry hentry
    have hne : entry.1.toList ≠ [] :=
      (by decide : ∀ entry ∈ connectives, entry.1.toList ≠ []) entry hentry
    obtain ⟨x, w, hx⟩ := List.exists_cons_of_ne_nil hne
    rw [hx] at hcapital ⊢
    exact word?_cons_of_ne (hfirst (hcapital x List.mem_cons_self)) w cs
  rw [connectiveOf?, hnone]

theorem connective?_append {entry : String × Connective} (h : entry ∈ connectives)
    (rest : List Char) : connective? (entry.1.toList ++ ' ' :: rest) =
      some (entry.2, entry.1.toList.length) := by
  have hself : entry.1.toList.map Char.toUpper = entry.1.toList :=
    (by decide : ∀ entry ∈ connectives, entry.1.toList.map Char.toUpper = entry.1.toList) entry h
  have hfound : connectiveOf? (entry.1.toList ++ ' ' :: rest) entry =
      some (entry.2, entry.1.toList.length) := by
    have hend : wordEnds (' ' :: rest) = true := rfl
    rw [connectiveOf?, word?_append hself]
    simp [hend]
  simp only [connectives, List.mem_cons, List.not_mem_nil, or_false] at h
  rcases h with rfl | rfl | rfl
  · rw [connective?_eq, connectives, List.findSome?_cons, hfound]
  · rw [connective?_eq, connectives, List.findSome?_cons, List.findSome?_cons, hfound]
    rfl
  · rw [connective?_eq, connectives, List.findSome?_cons, List.findSome?_cons,
      List.findSome?_cons, hfound]
    rfl

theorem findConnective_of_mem {entry : String × Connective} (h : entry ∈ connectives)
    (waiting : Bool) (rest : List Char) :
    findConnective waiting (entry.1.toList ++ ' ' :: rest) =
      some (entry.2.after waiting, entry.2.cut? waiting, entry.1.toList.length) := by
  rw [findConnective_eq, connective?_append h]
  rfl

theorem findConnective_between (waiting : Bool) (rest : List Char) :
    findConnective waiting ("BETWEEN".toList ++ ' ' :: rest) = some (true, none, 7) :=
  findConnective_of_mem (by decide : ("BETWEEN", Connective.between) ∈ connectives) waiting rest

theorem findConnective_waiting (rest : List Char) :
    findConnective true ("AND".toList ++ ' ' :: rest) = some (false, none, 3) :=
  findConnective_of_mem (by decide : ("AND", Connective.joins .and) ∈ connectives) true rest

theorem findConnective_name (combinator : Combinator) (waiting : Bool) (rest : List Char) :
    findConnective waiting (combinator.name.toList ++ ' ' :: rest) =
      some (Connective.after waiting (.joins combinator),
        Connective.cut? waiting (.joins combinator), combinator.name.toList.length) := by
  have hm : (combinator.name, Connective.joins combinator) ∈ connectives := by
    cases combinator <;> decide
  exact findConnective_of_mem hm waiting rest

theorem cutWords_joins {combinator : Combinator} {waiting : Bool}
    (hcut : Connective.cut? waiting (.joins combinator) = some combinator) (rest : List Char) :
    cutWords findConnective (.outside 0) true 0 waiting (combinator.name.toList ++ ' ' :: rest) =
      ([], (combinator, (cutWords findConnective (.outside 0)
        (startBehind true combinator.name.toList) 0
          (Connective.after waiting (.joins combinator)) (' ' :: rest)).1) ::
        (cutWords findConnective (.outside 0) (startBehind true combinator.name.toList) 0
          (Connective.after waiting (.joins combinator)) (' ' :: rest)).2) := by
  have hfind := findConnective_name combinator waiting rest
  have hordinary : ∀ c ∈ combinator.name.toList, isOrdinary c = true := by
    cases combinator <;> decide
  have hbehind : behind (.outside 0) combinator.name.toList = .outside 0 :=
    behind_of_run? (run?_of_ordinary hordinary 0)
  obtain ⟨c, w, hcw⟩ : ∃ c w, combinator.name.toList = c :: w := by
    cases combinator <;> exact ⟨_, _, rfl⟩
  have htop : (outside 0).isTop c = true := by
    simp [isTop, hordinary c (hcw ▸ List.mem_cons_self)]
  rw [hcut, hcw] at hfind
  rw [hcw] at hbehind ⊢
  rw [cutWords_cut htop hfind, hbehind]

theorem passes_spaced {waiting waiting' : Bool} {w after : List Char}
    (hw : Passes findConnective waiting waiting' after true w) (start : Bool) :
    Passes findConnective waiting waiting' after start (' ' :: w) :=
  (passes_gap (findConnective_blank waiting) isGap_space).append hw

theorem passes_word {w after : List Char} (hb : ∀ c ∈ w, isBlank c = false)
    (ho : ∀ c ∈ w, isOrdinary c = true) (he : wordEnds after = true)
    (hn : ∀ entry ∈ connectives, w.map Char.toUpper ≠ entry.1.toList) (waiting start : Bool) :
    Passes findConnective waiting waiting after start w :=
  passes_of_quiet (quiet_of_noBlank hb fun _ => findConnective_eq_none hb he hn waiting)
    (balanced_of_ordinary ho)

theorem passes_capital {w after : List Char} (hw : IsCapital w) (he : wordEnds after = true)
    (hn : ∀ entry ∈ connectives, w.map Char.toUpper ≠ entry.1.toList) (waiting start : Bool) :
    Passes findConnective waiting waiting after start w :=
  passes_word (fun c hc => not_isBlank_of_isNameChar (hw.isNameChar c hc))
    (fun c hc => isOrdinary_of_isNameChar (hw.isNameChar c hc)) he hn waiting start

theorem passes_withNot {w after : List Char} (negated : Bool) {waiting waiting' : Bool}
    (hw : Passes findConnective waiting waiting' after true w) :
    Passes findConnective waiting waiting' after true (withNot negated w) := by
  cases negated with
  | false => exact hw
  | true =>
    have hnot : Passes findConnective waiting waiting (' ' :: (w ++ after)) true "NOT".toList :=
      passes_capital (by decide) rfl (by decide) waiting true
    exact Passes.append (a := "NOT".toList) (b := ' ' :: w) hnot (passes_spaced hw _)

theorem passes_literal (literal : Literal) {after : List Char} (he : wordEnds after = true)
    (waiting start : Bool) : Passes findConnective waiting waiting after start literal.chars := by
  cases literal with
  | null => exact passes_capital (by decide) he (by decide) waiting start
  | bool b =>
    cases b <;> exact passes_capital (by decide) he (by decide) waiting start
  | whole n =>
    have hd {c : Char} (hc : c ∈ Number.intChars n) : c.toNat ≤ 57 := by
      have h := Number.toNat_of_mem_intChars hc
      omega
    refine passes_word (fun c hc => ?_) (fun c hc => Literal.isOrdinary_of_mem_intChars hc) he
      (fun entry hentry hcs => ?_) waiting start
    · exact Literal.isBlank_of_mem_intChars hc
    · -- the capitals of digits are no capital letters
      obtain ⟨c, cs, hc⟩ := List.exists_cons_of_ne_nil (Number.intChars_ne_nil n)
      have hm : c.toUpper ∈ entry.1.toList := by
        change (Number.intChars n).map Char.toUpper = _ at hcs
        rw [← hcs, hc]
        exact List.mem_map_of_mem List.mem_cons_self
      have hupper := isUpper_iff.mp (isCapital_connectives entry hentry _ hm)
      have hdc := hd (hc ▸ List.mem_cons_self)
      rw [toNat_toUpper] at hupper
      split at hupper <;> omega
  | text s =>
    obtain ⟨hrun, hhidden⟩ := Literal.hidden_text s 0
    exact passes_of_quiet (quiet_of_hidden hhidden) (balanced_iff.mpr hrun)

theorem comparisons_words : ∀ c ∈ comparisons, (∀ x ∈ c.1.name.toList, isBlank x = false) ∧
    (∀ x ∈ c.1.name.toList, isOrdinary x = true) ∧
      ∀ entry ∈ connectives, c.1.name.toList.map Char.toUpper ≠ entry.1.toList := by decide

theorem passes_between (low high : Literal) {after : List Char} (he : wordEnds after = true) :
    Passes findConnective false false after true
      ("BETWEEN".toList ++ ' ' :: (low.chars ++ (" AND ".toList ++ high.chars))) := by
  have hname : ∀ c ∈ "BETWEEN".toList, isNameChar c = true := by decide
  have hlow : Passes findConnective true true (" AND ".toList ++ (high.chars ++ after)) true
      low.chars := passes_literal low rfl true true
  have hhigh : Passes findConnective false false after true high.chars :=
    passes_literal high he false true
  have hand : Passes findConnective true false (' ' :: (high.chars ++ after)) true "AND".toList :=
    passes_of_keep (by decide) (by decide) (findConnective_waiting _)
  have hrest : Passes findConnective true false after (startBehind true low.chars)
      (" AND ".toList ++ high.chars) :=
    Passes.append (a := ' ' :: "AND".toList) (b := ' ' :: high.chars)
      (passes_spaced hand _) (passes_spaced hhigh _)
  have hbounds : Passes findConnective true false after true
      (low.chars ++ (" AND ".toList ++ high.chars)) :=
    Passes.append (b := " AND ".toList ++ high.chars) hlow hrest
  exact (passes_of_keep hname (by decide) (findConnective_between false _)).append
    (passes_spaced hbounds _)

theorem passes_test (test : WrittenTest) {after : List Char} (he : wordEnds after = true) :
    Passes findConnective false false after true test.chars := by
  cases test with
  | compares operator negated literal known =>
    obtain ⟨hb, ho, hn⟩ := comparisons_words _ known
    have hoperator : Passes findConnective false false (' ' :: (literal.chars ++ after)) true
        (withNot negated operator.name.toList) :=
      passes_withNot negated (passes_word hb ho rfl hn false true)
    exact hoperator.append (passes_spaced (passes_literal literal he false true) _)
  | isIn negated items =>
    have hitems := balanced_joined fun item (hi : item ∈ items.map Literal.chars) => by
      obtain ⟨l, -, rfl⟩ := List.mem_map.mp hi
      exact l.isItem_chars
    have hlist : Passes findConnective false false after true
        ('(' :: (joined (items.map Literal.chars) ++ [')'])) :=
      passes_of_quiet (quiet_of_hidden (hidden_parentheses hitems)) (balanced_parentheses hitems)
    have hword : Passes findConnective false false
        (' ' :: ('(' :: (joined (items.map Literal.chars) ++ [')']) ++ after)) true
        (withNot negated "IN".toList) :=
      passes_withNot negated (passes_capital (by decide) rfl (by decide) false true)
    exact hword.append (passes_spaced hlist _)
  | between negated low high =>
    have hbetween := passes_withNot negated (passes_between (.whole low) (.whole high) he)
    cases negated <;> exact hbetween
  | isNull negated =>
    have his : Passes findConnective false false
        (' ' :: (withNot negated "NULL".toList ++ after)) true "IS".toList :=
      passes_capital (by decide) rfl (by decide) false true
    have hnull : Passes findConnective false false after true (withNot negated "NULL".toList) :=
      passes_withNot negated (passes_capital (by decide) he (by decide) false true)
    exact Passes.append (a := "IS".toList) (b := ' ' :: withNot negated "NULL".toList) his
      (passes_spaced hnull _)

theorem passes_field {field after : List Char} (hf : isFieldPath field = true)
    (hn : ∀ entry ∈ connectives, field.map Char.toUpper ≠ entry.1.toList)
    (he : wordEnds after = true) (waiting start : Bool) :
    Passes findConnective waiting waiting after start field :=
  passes_word (isBlank_of_isFieldPath hf)
    (fun _ hc => isOrdinary_of_isPathChar (isPathChar_of_isFieldPath hf hc)) he hn waiting start

theorem passes_chars (c : WrittenCondition) {after : List Char} (he : wordEnds after = true)
    (start : Bool) : Passes findConnective false false after start c.chars := by
  have hfree : ∀ entry ∈ connectives, c.field.map Char.toUpper ≠ entry.1.toList := by
    intro entry hentry hw
    have hm : entry.1.toList ∈ filterWords :=
      (by decide : ∀ entry ∈ connectives, entry.1.toList ∈ filterWords) entry hentry
    exact c.isFree (hw ▸ hm)
  have hfield :
      Passes findConnective false false (' ' :: (c.test.chars ++ after)) start c.field :=
    passes_field c.isPath hfree rfl false start
  exact hfield.append (passes_spaced (passes_test c.test he) _)

/-- Conditions in a row, each but the first behind the word that joins it. -/
structure Written where
  first : WrittenCondition
  rest : List (Combinator × WrittenCondition)

namespace Written

def joinedChars (rest : List (Combinator × WrittenCondition)) : List Char :=
  rest.flatMap fun entry => ' ' :: (entry.1.name.toList ++ ' ' :: entry.2.chars)

def chars (f : Written) : List Char := f.first.chars ++ joinedChars f.rest

def filter (f : Written) : Filter :=
  .chain f.first.condition (f.rest.map fun entry => (entry.1, entry.2.condition))

theorem joinedChars_cons (entry : Combinator × WrittenCondition)
    (rest : List (Combinator × WrittenCondition)) : joinedChars (entry :: rest) =
      ' ' :: (entry.1.name.toList ++ ' ' :: (entry.2.chars ++ joinedChars rest)) := by
  simp [joinedChars]

theorem passes_lead (c : WrittenCondition) {lead after : List Char} (hlead : IsGap lead)
    (he : wordEnds after = true) (start : Bool) :
    Passes findConnective false false after start (lead ++ c.chars) :=
  (passes_gap (findConnective_blank false) hlead).append (passes_chars c he _)

theorem cutWords_name (combinator : Combinator) (rest : List Char) :
    cutWords findConnective (.outside 0) true 0 false (combinator.name.toList ++ ' ' :: rest) =
      ([], (combinator, (cutWords findConnective (.outside 0)
        (startBehind true combinator.name.toList) 0 false (' ' :: rest)).1) ::
        (cutWords findConnective (.outside 0)
          (startBehind true combinator.name.toList) 0 false (' ' :: rest)).2) := by
  cases combinator <;> exact cutWords_joins rfl rest

theorem cutWords_chain (first : WrittenCondition) (rest : List (Combinator × WrittenCondition))
    {lead : List Char} (hlead : IsGap lead) (start : Bool) :
    ∃ text cuts, cutWords findConnective (.outside 0) start 0 false
        (lead ++ first.chars ++ joinedChars rest) = (text, cuts) ∧ trim text = first.chars ∧
      cuts.map (fun cut => (cut.1, trim cut.2)) =
        rest.map fun entry => (entry.1, entry.2.chars) := by
  have htrim {c : WrittenCondition} {lead g : List Char} (hl : IsGap lead) (hg : IsGap g) :
      trim (lead ++ c.chars ++ g) = c.chars := trim_between hl c.isTrimmed_chars hg
  induction rest generalizing first lead start with
  | nil =>
    have hpass : Passes findConnective false false [] start (lead ++ first.chars) :=
      passes_lead first hlead rfl start
    exact ⟨_, [], hpass, htrim hlead isGap_nil, rfl⟩
  | cons entry rest ih =>
    obtain ⟨combinator, next⟩ := entry
    obtain ⟨text, cuts, hcut, htext, hcuts⟩ :=
      ih next isGap_space (startBehind true combinator.name.toList)
    have hpass : Passes findConnective false false
        (' ' :: (combinator.name.toList ++ ' ' :: (next.chars ++ joinedChars rest))) start
        (lead ++ first.chars) := passes_lead first hlead rfl start
    have hspaced : Passes findConnective false false
        (combinator.name.toList ++ ' ' :: (next.chars ++ joinedChars rest)) start
        (lead ++ first.chars ++ [' ']) :=
      hpass.append (b := [' ']) (passes_gap (findConnective_blank false) isGap_space)
    have hstart : startBehind start (lead ++ first.chars ++ [' ']) = true := by
      rw [startBehind_append]
      rfl
    replace hcut : cutWords findConnective (.outside 0) (startBehind true combinator.name.toList) 0
        false (' ' :: (next.chars ++ joinedChars rest)) = (text, cuts) := hcut
    refine ⟨lead ++ first.chars ++ [' '], (combinator, text) :: cuts, ?_,
      htrim hlead isGap_space, ?_⟩
    · rw [Passes, hstart, cutWords_name, hcut, List.append_nil] at hspaced
      rw [joinedChars_cons, ← hspaced]
      simp
    · rw [List.map_cons, List.map_cons, htext, hcuts]

theorem balanced_condition (c : WrittenCondition) : Balanced c.chars :=
  c.test.balanced_behind c.isPath

theorem balanced_joinedChars (rest : List (Combinator × WrittenCondition)) :
    Balanced (joinedChars rest) := by
  have hblank : Balanced [' '] := balanced_gap isGap_space
  induction rest with
  | nil => exact balanced_gap isGap_nil
  | cons entry rest ih =>
    have hname : Balanced entry.1.name.toList := by cases entry.1 <;> decide
    rw [joinedChars_cons]
    exact hblank.append (hname.append (hblank.append ((balanced_condition entry.2).append ih)))

theorem getLast?_chain (first : WrittenCondition) (rest : List (Combinator × WrittenCondition)) :
    ∀ c ∈ (first.chars ++ joinedChars rest).getLast?, isBlank c = false := by
  induction rest generalizing first with
  | nil => simpa [joinedChars] using first.isTrimmed_chars.2
  | cons entry rest ih =>
    obtain ⟨combinator, next⟩ := entry
    have hsplit : first.chars ++ joinedChars ((combinator, next) :: rest) =
        (first.chars ++ ' ' :: (combinator.name.toList ++ [' '])) ++
          (next.chars ++ joinedChars rest) := by
      simp [joinedChars_cons]
    rw [hsplit, getLast?_of_append (by simp [WrittenCondition.chars])]
    exact ih next

theorem isTrimmed_chars (f : Written) : IsTrimmed f.chars := by
  have hfirst : f.first.chars ≠ [] := by simp [WrittenCondition.chars]
  exact ⟨f.first.isTrimmed_chars.head_append hfirst _, getLast?_chain f.first f.rest⟩

theorem mapM_read (rest : List (Combinator × WrittenCondition)) :
    (rest.map fun entry => (entry.1, entry.2.chars)).mapM
      (fun (combinator, text) => (Condition.read text).map (combinator, ·)) =
        Except.ok (rest.map fun entry => (entry.1, entry.2.condition)) := by
  induction rest with
  | nil => rfl
  | cons entry rest ih =>
    simp only [List.map_cons, List.mapM_cons, entry.2.read_chars, ih]
    rfl

/-- Joined conditions read back to the chain of these conditions. -/
theorem read_filter (f : Written) : Filter.read f.chars = .ok f.filter := by
  obtain ⟨text, cuts, hcut, htext, hcuts⟩ := cutWords_chain f.first f.rest isGap_nil true
  have hsplit : splitConditions f.chars =
      .ok (f.first.chars, f.rest.map fun entry => (entry.1, entry.2.chars)) := by
    have hbalanced : Balanced f.chars :=
      (balanced_condition f.first).append (balanced_joinedChars f.rest)
    replace hcut : cutWords findConnective (.outside 0) true 0 false f.chars = (text, cuts) := hcut
    rw [splitConditions, requireBalance_of_balanced hbalanced, hcut, ← htext, ← hcuts]
    rfl
  have hempty : f.chars.isEmpty = false := by simp [chars, WrittenCondition.chars]
  have hrest := mapM_read f.rest
  unfold Filter.read
  simp only [f.isTrimmed_chars.trim_eq, hempty, Bool.false_eq_true, ↓reduceIte, hsplit, bind,
    Except.bind, pure, Except.pure, f.first.read_chars] at hrest ⊢
  rw [hrest]
  rfl

/-- A text literal keeps to its quotes what looks like a part of the filter. -/
example : chars {
    first := ⟨"a.b".toList, .compares .unlike false (.text "x' OR \"y\\") (by decide), by decide,
      by decide⟩
    rest := [
      (.and, ⟨"n".toList, .between true ⟨-1, by decide⟩ ⟨20, by decide⟩, by decide, by decide⟩),
      (.or, ⟨"c".toList, .isIn false [.null, .bool true], by decide, by decide⟩)] } =
    "a.b <> 'x'' OR \"\"y\\\\' AND n NOT BETWEEN -1 AND 20 OR c IN (NULL, TRUE)".toList := by
  decide +kernel

end Written
end TableQuery.Filter
