import TableQuery.Proofs.Filter.WrittenFilter

/-! # Standing words of a filter

The connectives that stand at the top level of a text decide all its cuts, and whether a
BETWEEN still waits for its AND behind it. So a text that is followed by a blank is cut as it
is on its own, and what follows is cut in the state that the text leaves.
-/
namespace TableQuery.Filter
open Text Nesting

theorem connectiveOf?_append {entry : String × Connective} (hw : IsCapital entry.1.toList)
    {after : List Char} (he : wordEnds after = true) (cs : List Char) :
    connectiveOf? (cs ++ after) entry = connectiveOf? cs entry := by
  unfold connectiveOf?
  cases hword : word? entry.1.toList (cs ++ after) with
  | some rest =>
    obtain ⟨b, rfl, hb⟩ := word?_of_append hw (nameEnds_of_wordEnds he) hword
    have hends : wordEnds (b ++ after) = wordEnds b := by
      cases b with
      | nil => exact he
      | cons c b => rfl
    have hlength : (cs ++ after).length - (b ++ after).length = cs.length - b.length := by
      simp only [List.length_append]
      omega
    rw [hb]
    dsimp only
    rw [hends, hlength]
  | none =>
    cases hown : word? entry.1.toList cs with
    | none => rfl
    | some b =>
      obtain ⟨a, rfl, ha⟩ := word?_eq_some_iff.mp hown
      rw [List.append_assoc, word?_append ha] at hword
      cases hword

theorem connective?_of_append {after : List Char} (he : wordEnds after = true)
    (cs : List Char) : connective? (cs ++ after) = connective? cs := by
  have hentry : ∀ entry ∈ connectives, connectiveOf? (cs ++ after) entry = connectiveOf? cs entry :=
    fun entry h => connectiveOf?_append (isCapital_connectives entry h) he cs
  rw [connective?_eq, connective?_eq]
  simp only [connectives, List.forall_mem_cons] at hentry ⊢
  simp only [List.findSome?_cons, List.findSome?_nil, hentry.1, hentry.2.1, hentry.2.2.1]

theorem exists_of_connective? {cs : List Char} {connective : Connective} {length : Nat}
    (h : connective? cs = some (connective, length)) :
    ∃ a rest, cs = a ++ rest ∧ a ≠ [] ∧ a.length = length ∧ ∀ c ∈ a, isNameChar c = true := by
  rw [connective?_eq] at h
  obtain ⟨entry, hentry, h⟩ := List.exists_of_findSome?_eq_some h
  unfold connectiveOf? at h
  split at h
  · next rest hword =>
    obtain ⟨a, rfl, ha⟩ := word?_eq_some_iff.mp hword
    split at h
    · cases h
      have hcapital := isCapital_connectives entry hentry
      have hne : entry.1.toList ≠ [] :=
        (by decide : ∀ entry ∈ connectives, entry.1.toList ≠ []) entry hentry
      rw [← ha] at hcapital hne
      refine ⟨a, rest, rfl, fun h => hne (by rw [h]; rfl), by simp, fun c hc => ?_⟩
      exact isNameChar_of_toUpper (hcapital _ (List.mem_map_of_mem hc))
    · cases h
  · cases h

/-- The connective found where a text goes on with `c :: rest`. -/
def foundAt? (n : Nesting) (start : Bool) (c : Char) (rest : List Char) :
    Option (Connective × Nat) := if start && n.isTop c then connective? (c :: rest) else none

/-- Behind the first character of a connective its other characters follow, none of them blank. -/
theorem exists_of_foundAt? {n : Nesting} {start : Bool} {c : Char} {rest : List Char}
    {word : Connective} {length : Nat} (h : foundAt? n start c rest = some (word, length)) :
    ∃ a tail, rest = a ++ tail ∧ a.length = length - 1 ∧ isBlank c = false ∧
      ∀ d ∈ a, isBlank d = false := by
  unfold foundAt? at h
  split at h
  · obtain ⟨a, tail, hsplit, hne, rfl, ha⟩ := exists_of_connective? h
    obtain ⟨d, a, rfl⟩ := List.exists_cons_of_ne_nil hne
    obtain ⟨rfl, rfl⟩ := List.cons.inj hsplit
    have hblank : ∀ d ∈ c :: a, isBlank d = false := fun d hd => not_isBlank_of_isNameChar (ha d hd)
    exact ⟨a, tail, rfl, rfl, hblank c List.mem_cons_self,
      fun d hd => hblank d (List.mem_cons_of_mem c hd)⟩
  · cases h

/-- The connectives that stand as whole words at the top level of a text. -/
def standing : Nesting → Bool → List Char → List Connective
  | _, _, [] => []
  | n, start, c :: rest =>
    match foundAt? n start c rest with
    | some (connective, _) => connective :: standing (n.next c) (isBlank c) rest
    | none => standing (n.next c) (isBlank c) rest

def waitsBehind (waiting : Bool) (words : List Connective) : Bool :=
  words.foldl Connective.after waiting

/-- The combinators at which a text with some standing words is cut. -/
def cutsAt : Bool → List Connective → List Combinator
  | _, [] => []
  | waiting, word :: words => (word.cut? waiting).toList ++ cutsAt (word.after waiting) words

/-- Where a text without a waiting BETWEEN in front is not cut, one in front changes nothing. -/
theorem cutsAt_waiting {words : List Connective} (h : cutsAt false words = []) :
    cutsAt true words = [] := by
  cases words with
  | nil => rfl
  | cons word words =>
    cases word with
    | between => exact h
    | joins combinator => cases combinator <;> cases h

theorem standing_inWord {a : List Char} (ha : ∀ c ∈ a, isBlank c = false) (n : Nesting)
    (rest : List Char) :
    standing n false (a ++ rest) = standing (behind n a) (startBehind false a) rest := by
  induction a generalizing n with
  | nil => rfl
  | cons c a ih =>
    have hc := ha c List.mem_cons_self
    rw [List.cons_append, standing, foundAt?, hc]
    simp only [Bool.false_and, Bool.false_eq_true, ↓reduceIte]
    rw [ih (fun d hd => ha d (List.mem_cons_of_mem _ hd)), behind_cons, startBehind_cons, hc]

theorem standing_gap {g : List Char} (hg : IsGap g) (start : Bool) (rest : List Char) :
    standing (.outside 0) start (g ++ rest) =
      standing (.outside 0) (startBehind start g) rest := by
  induction g generalizing start with
  | nil => rfl
  | cons c g ih =>
    obtain ⟨hc, hg⟩ := isGap_cons.mp hg
    have hnone : foundAt? (.outside 0) start c (g ++ rest) = none := by
      unfold foundAt?
      have hblank := findConnective_blank false c (g ++ rest) hc
      rw [findConnective, Option.map_eq_none_iff] at hblank
      rw [hblank, ite_self]
    have hnext : (Nesting.outside 0).next c = .outside 0 := by
      rw [next, next?_of_isOrdinary (isOrdinary_of_isBlank hc)]
      rfl
    rw [List.cons_append, standing, hnone, startBehind_cons, hnext]
    exact ih hg _

/-- The pieces of a text whose last piece goes on with the first of another. -/
def joinCuts {κ : Type} (text : List Char) (cuts : List (κ × List Char))
    (next : List Char × List (κ × List Char)) : List Char × List (κ × List Char) :=
  match cuts with
  | [] => (text ++ next.1, next.2)
  | (key, second) :: rest =>
    (text, (key, (joinCuts second rest next).1) :: (joinCuts second rest next).2)

theorem joinCuts_cons {κ : Type} (c : Char) (text : List Char) (cuts : List (κ × List Char))
    (next : List Char × List (κ × List Char)) : joinCuts (c :: text) cuts next =
      (c :: (joinCuts text cuts next).1, (joinCuts text cuts next).2) := by
  cases cuts <;> rfl

theorem cutWords_cons (n : Nesting) (start waiting : Bool) (c : Char) (rest : List Char) :
    cutWords findConnective n start 0 waiting (c :: rest) =
      match foundAt? n start c rest with
      | none =>
        (c :: (cutWords findConnective (n.next c) (isBlank c) 0 waiting rest).1,
          (cutWords findConnective (n.next c) (isBlank c) 0 waiting rest).2)
      | some (word, length) =>
        match word.cut? waiting with
        | none =>
          (c :: (cutWords findConnective (n.next c) (isBlank c) 0 (word.after waiting) rest).1,
            (cutWords findConnective (n.next c) (isBlank c) 0 (word.after waiting) rest).2)
        | some key =>
          ([], (key, (cutWords findConnective (n.next c) (isBlank c) (length - 1)
            (word.after waiting) rest).1) :: (cutWords findConnective (n.next c) (isBlank c)
              (length - 1) (word.after waiting) rest).2) := by
  rw [cutWords, foundAt?, findConnective_eq]
  cases start && n.isTop c with
  | false => rfl
  | true =>
    simp only [↓reduceIte]
    cases connective? (c :: rest) with
    | none => rfl
    | some found =>
      obtain ⟨word, length⟩ := found
      dsimp only [Option.map_some]
      cases word.cut? waiting <;> rfl

/-- A text in front of a blank is cut as on its own, and what follows in the state it leaves. -/
theorem cutWords_append {after : List Char} (he : wordEnds after = true) (cs : List Char)
    (n : Nesting) (start waiting : Bool) :
    cutWords findConnective n start 0 waiting (cs ++ after) =
      joinCuts (cutWords findConnective n start 0 waiting cs).1
        (cutWords findConnective n start 0 waiting cs).2
        (cutWords findConnective (behind n cs) (startBehind start cs) 0
          (waitsBehind waiting (standing n start cs)) after) := by
  cases cs with
  | nil => rfl
  | cons c rest =>
    have hfound : foundAt? n start c (rest ++ after) = foundAt? n start c rest := by
      unfold foundAt?
      rw [← List.cons_append, connective?_of_append he]
    rw [List.cons_append, cutWords_cons, cutWords_cons, hfound, standing]
    cases hf : foundAt? n start c rest with
    | none =>
      dsimp only
      rw [cutWords_append he rest, joinCuts_cons]
      rfl
    | some found =>
      obtain ⟨word, length⟩ := found
      dsimp only
      cases hcut : word.cut? waiting with
      | none =>
        dsimp only
        rw [cutWords_append he rest, joinCuts_cons]
        rfl
      | some key =>
        obtain ⟨a, tail, rfl, hlength, hc, ha⟩ := exists_of_foundAt? hf
        have hshorter : tail.length < (c :: (a ++ tail)).length := by
          simp only [List.length_cons, List.length_append]
          omega
        dsimp only
        rw [← hlength, List.append_assoc, cutWords_skip, cutWords_skip, hc, standing_inWord ha,
          cutWords_append he tail, behind_cons, behind_append, startBehind_cons, hc,
          startBehind_append]
        rfl
termination_by cs.length

theorem eq_of_uncut {cs : List Char} {n : Nesting} {start waiting : Bool}
    (h : (cutWords findConnective n start 0 waiting cs).2 = []) :
    (cutWords findConnective n start 0 waiting cs).1 = cs := by
  induction cs generalizing n start waiting with
  | nil => rfl
  | cons c rest ih =>
    revert h
    rw [cutWords_cons]
    cases foundAt? n start c rest with
    | none => exact fun h => congrArg (c :: ·) (ih h)
    | some found =>
      obtain ⟨word, length⟩ := found
      dsimp only
      cases word.cut? waiting with
      | none => exact fun h => congrArg (c :: ·) (ih h)
      | some key => exact fun h => by cases h

theorem keys_cutWords (cs : List Char) (n : Nesting) (start waiting : Bool) :
    (cutWords findConnective n start 0 waiting cs).2.map (·.1) =
      cutsAt waiting (standing n start cs) := by
  cases cs with
  | nil => rfl
  | cons c rest =>
    rw [cutWords_cons, standing]
    cases hf : foundAt? n start c rest with
    | none => exact keys_cutWords rest _ _ _
    | some found =>
      obtain ⟨word, length⟩ := found
      dsimp only [cutsAt]
      cases word.cut? waiting with
      | none => exact keys_cutWords rest _ _ _
      | some key =>
        obtain ⟨a, tail, rfl, hlength, hc, ha⟩ := exists_of_foundAt? hf
        have hshorter : tail.length < (c :: (a ++ tail)).length := by
          simp only [List.length_cons, List.length_append]
          omega
        rw [← hlength, cutWords_skip, hc, standing_inWord ha]
        exact congrArg (key :: ·) (keys_cutWords tail _ _ _)
termination_by cs.length

theorem cutWords_of_cutsAt {cs : List Char} {n : Nesting} {start waiting : Bool}
    (h : cutsAt waiting (standing n start cs) = []) :
    cutWords findConnective n start 0 waiting cs = (cs, []) := by
  rw [← keys_cutWords, List.map_eq_nil_iff] at h
  exact Prod.ext (eq_of_uncut h) h

end TableQuery.Filter
