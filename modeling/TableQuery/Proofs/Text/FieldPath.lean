import TableQuery.Proofs.Text.Word

/-! # Names and field paths

A field path is made of name characters and points and starts with the start of a
name. In front of any other character it is taken off a text as a whole.
-/
namespace TableQuery.Text

def isPathChar (c : Char) : Bool := isNameChar c || c == '.'

theorem isNameChar_of_isName {cs : List Char} (h : isName cs = true) {c : Char} (hc : c ∈ cs) :
    isNameChar c = true := by
  cases cs with
  | nil => cases h
  | cons d cs =>
    rw [isName, Bool.and_eq_true, List.all_eq_true] at h
    rcases List.mem_cons.mp hc with rfl | hc
    · exact isNameChar_of_isNameStart h.1
    · exact h.2 c hc

theorem pathSegments_ne_nil (cs : List Char) : pathSegments cs ≠ [] := by
  cases cs with
  | nil => simp [pathSegments]
  | cons c cs =>
    rw [pathSegments]
    split
    · simp
    · split <;> simp

theorem pathSegments_cons {c : Char} (hc : c ≠ '.') (cs : List Char) :
    ∃ segment segments, pathSegments cs = segment :: segments ∧
      pathSegments (c :: cs) = (c :: segment) :: segments := by
  obtain ⟨segment, segments, h⟩ := List.exists_cons_of_ne_nil (pathSegments_ne_nil cs)
  exact ⟨segment, segments, h, by rw [pathSegments, if_neg hc, h]⟩

theorem mem_pathSegments {cs : List Char} {c : Char} (h : c ∈ cs) :
    c = '.' ∨ ∃ segment ∈ pathSegments cs, c ∈ segment := by
  induction cs with
  | nil => cases h
  | cons d cs ih =>
    by_cases hd : d = '.'
    · subst hd
      rcases List.mem_cons.mp h with rfl | h
      · exact Or.inl rfl
      · rcases ih h with rfl | ⟨segment, hs, hc⟩
        · exact Or.inl rfl
        · exact Or.inr ⟨segment, by simp [pathSegments, hs], hc⟩
    · obtain ⟨first, rest, hcs, hdcs⟩ := pathSegments_cons hd cs
      rw [hdcs]
      rw [hcs] at ih
      rcases List.mem_cons.mp h with rfl | h
      · exact Or.inr ⟨c :: first, List.mem_cons_self, List.mem_cons_self⟩
      · rcases ih h with rfl | ⟨segment, hs, hc⟩
        · exact Or.inl rfl
        · rcases List.mem_cons.mp hs with rfl | hs
          · exact Or.inr ⟨d :: segment, List.mem_cons_self, List.mem_cons_of_mem _ hc⟩
          · exact Or.inr ⟨segment, List.mem_cons_of_mem _ hs, hc⟩

theorem isPathChar_of_isFieldPath {cs : List Char} (h : isFieldPath cs = true) {c : Char}
    (hc : c ∈ cs) : isPathChar c = true := by
  rw [isPathChar, Bool.or_eq_true, beq_iff_eq]
  rcases mem_pathSegments hc with hp | ⟨segment, hs, hc⟩
  · exact Or.inr hp
  · exact Or.inl (isNameChar_of_isName (List.all_eq_true.mp h segment hs) hc)

theorem exists_cons_of_isFieldPath {cs : List Char} (h : isFieldPath cs = true) :
    ∃ c rest, cs = c :: rest ∧ isNameStart c = true := by
  cases cs with
  | nil => cases h
  | cons c cs =>
    refine ⟨c, cs, rfl, ?_⟩
    by_cases hc : c = '.'
    · subst hc
      simp [isFieldPath, pathSegments, isName] at h
    · obtain ⟨segment, segments, -, hseg⟩ := pathSegments_cons hc cs
      rw [isFieldPath, hseg, List.all_cons, isName, Bool.and_assoc, Bool.and_eq_true] at h
      exact h.1

theorem pathSegments_of_notMem {cs : List Char} (h : '.' ∉ cs) : pathSegments cs = [cs] := by
  induction cs with
  | nil => rfl
  | cons c cs ih =>
    rw [List.mem_cons, not_or] at h
    obtain ⟨segment, segments, hcs, hcons⟩ := pathSegments_cons (Ne.symm h.1) cs
    rw [ih h.2] at hcs
    obtain ⟨rfl, rfl⟩ := List.cons.inj hcs
    exact hcons

theorem isFieldPath_of_isName {cs : List Char} (h : isName cs = true) : isFieldPath cs = true := by
  have hpoint : '.' ∉ cs := by
    intro hc
    exact absurd (isNameChar_of_isName h hc) (by decide)
  rw [isFieldPath, pathSegments_of_notMem hpoint, List.all_cons, h]
  rfl

theorem isBlank_of_isPathChar {c : Char} (h : isPathChar c = true) : isBlank c = false := by
  rw [isPathChar, Bool.or_eq_true, beq_iff_eq] at h
  rcases h with h | rfl
  · exact not_isBlank_of_isNameChar h
  · decide

theorem isBlank_of_isFieldPath {path : List Char} (hp : isFieldPath path = true) :
    ∀ c ∈ path, isBlank c = false :=
  fun _ hc => isBlank_of_isPathChar (isPathChar_of_isFieldPath hp hc)

theorem ne_nil_of_isFieldPath {path : List Char} (hp : isFieldPath path = true) : path ≠ [] := by
  obtain ⟨c, rest, rfl, -⟩ := exists_cons_of_isFieldPath hp
  exact List.cons_ne_nil c rest

theorem isTrimmed_of_isFieldPath {path : List Char} (hp : isFieldPath path = true) :
    IsTrimmed path := isTrimmed_of_forall (isBlank_of_isFieldPath hp)

theorem leadingPath?_append {path : List Char} (hp : isFieldPath path = true) {c : Char}
    (hc : isPathChar c = false) (rest : List Char) :
    leadingPath? (path ++ c :: rest) = some (path, c :: rest) := by
  have hall : ∀ d ∈ path, isPathChar d = true := fun d hd => isPathChar_of_isFieldPath hp hd
  have hstop : ∀ d ∈ (c :: rest).head?, isPathChar d = false := by simpa using hc
  obtain ⟨htake, hdrop⟩ := span_append hall hstop
  change (if isFieldPath ((path ++ c :: rest).takeWhile isPathChar) then
    some ((path ++ c :: rest).takeWhile isPathChar, (path ++ c :: rest).dropWhile isPathChar)
    else none) = _
  rw [htake, hdrop, if_pos hp]

theorem leadingPath?_spaced {path : List Char} (hp : isFieldPath path = true) (rest : List Char) :
    leadingPath? (path ++ ' ' :: rest) = some (path, ' ' :: rest) :=
  leadingPath?_append hp (by decide) rest

end TableQuery.Text
