import TableQuery.Text.Blank

/-! # Gaps and trimmed texts

A gap is a run of blanks, possibly empty. A text is trimmed when it has no blank at
either end. Trimming takes the gaps around a trimmed text off and nothing else.
-/
namespace TableQuery.Text

/-- What holds of the characters of a text is decided along the text, not over all characters. -/
instance (priority := 2000) decidableForallMem (cs : List Char) (p : Char → Prop)
    [DecidablePred p] : Decidable (∀ c ∈ cs, p c) := List.decidableBAll p cs

instance (priority := 2000) decidableForallMemOption (o : Option Char) (p : Char → Prop)
    [DecidablePred p] : Decidable (∀ c ∈ o, p c) := Option.decidableForallMem o

/-- Where what passes a test comes first, and what follows does not start with more of it. -/
theorem span_append {α : Type} {p : α → Bool} {xs rest : List α} (hxs : ∀ x ∈ xs, p x = true)
    (hrest : ∀ x ∈ rest.head?, p x = false) :
    (xs ++ rest).takeWhile p = xs ∧ (xs ++ rest).dropWhile p = rest := by
  rw [List.takeWhile_append_of_pos hxs, List.dropWhile_append_of_pos hxs]
  cases rest with
  | nil => exact ⟨List.append_nil _, rfl⟩
  | cons x rest => simp [hrest x rfl]

def IsGap (cs : List Char) : Prop := ∀ c ∈ cs, isBlank c = true

abbrev Gap : Type := {cs : List Char // IsGap cs}

abbrev Blanks : Type := {cs : List Char // cs ≠ [] ∧ IsGap cs}

def IsTrimmed (cs : List Char) : Prop :=
  (∀ c ∈ cs.head?, isBlank c = false) ∧ ∀ c ∈ cs.getLast?, isBlank c = false

instance (cs : List Char) : Decidable (IsGap cs) := inferInstanceAs (Decidable (∀ c ∈ cs, _))

instance (cs : List Char) : Decidable (IsTrimmed cs) := inferInstanceAs (Decidable (_ ∧ _))

@[simp] theorem isGap_nil : IsGap [] := by simp [IsGap]

theorem isGap_space : IsGap [' '] := by decide

@[simp] theorem isGap_cons {c : Char} {cs : List Char} :
    IsGap (c :: cs) ↔ isBlank c = true ∧ IsGap cs := by simp [IsGap]

@[simp] theorem isGap_append {a b : List Char} : IsGap (a ++ b) ↔ IsGap a ∧ IsGap b := by
  simp only [IsGap, List.mem_append, or_imp, forall_and]

theorem isGap_reverse {a : List Char} : IsGap a.reverse ↔ IsGap a := by simp [IsGap]

theorem getLast?_of_append {a b : List Char} (hb : b ≠ []) :
    (a ++ b).getLast? = b.getLast? := by
  rw [List.getLast?_append, List.getLast?_eq_some_getLast hb]
  rfl

theorem getLast?_cons_getD {α β : Type} (f : α → β) (a : α) (xs : List α) (b : β) :
    ((a :: xs).getLast?.map f).getD b = (xs.getLast?.map f).getD (f a) := by
  rw [List.getLast?_cons]
  cases xs.getLast? <;> rfl

theorem isTrimmed_of_forall {cs : List Char} (h : ∀ c ∈ cs, isBlank c = false) : IsTrimmed cs :=
  ⟨fun c hc => h c (List.mem_of_mem_head? hc), fun c hc => h c (List.mem_of_getLast? hc)⟩

theorem isTrimmed_reverse {cs : List Char} : IsTrimmed cs.reverse ↔ IsTrimmed cs := by
  simp only [IsTrimmed, List.head?_reverse, List.getLast?_reverse]
  exact And.comm

theorem IsTrimmed.eq_nil_of_isGap {cs : List Char} (h : IsTrimmed cs) (hg : IsGap cs) :
    cs = [] := by
  cases cs with
  | nil => rfl
  | cons c cs =>
    have hc := h.1 c rfl
    have hb := (isGap_cons.mp hg).1
    rw [hc] at hb
    cases hb

theorem IsTrimmed.head_append {a : List Char} (ha : IsTrimmed a) (hn : a ≠ []) (b : List Char) :
    ∀ c ∈ (a ++ b).head?, isBlank c = false := by
  obtain ⟨c, cs, rfl⟩ := List.exists_cons_of_ne_nil hn
  exact ha.1

theorem IsTrimmed.append {a b : List Char} (ha : IsTrimmed a) (hn : a ≠ []) (hb : b ≠ [])
    (h : ∀ c ∈ b.getLast?, isBlank c = false) : IsTrimmed (a ++ b) := by
  refine ⟨ha.head_append hn b, ?_⟩
  rw [getLast?_of_append hb]
  exact h

theorem IsTrimmed.cons_of_head {c : Char} {cs : List Char} (h : IsTrimmed (c :: cs)) :
    isBlank c = false := h.1 c rfl

theorem trimStart_gap_append {g : List Char} (hg : IsGap g) (cs : List Char) :
    trimStart (g ++ cs) = trimStart cs := List.dropWhile_append_of_pos hg

theorem trimStart_of_head {cs : List Char} (h : ∀ c ∈ cs.head?, isBlank c = false) :
    trimStart cs = cs := by
  cases cs with
  | nil => rfl
  | cons c cs => exact List.dropWhile_cons_of_neg (by simp [h c rfl])

/-- Blanks are taken off the first of two texts if that has any other character. -/
theorem trimStart_append_of_not_gap {a : List Char} (h : ¬IsGap a) (b : List Char) :
    trimStart (a ++ b) = trimStart a ++ b := by
  induction a with
  | nil => exact absurd isGap_nil h
  | cons c a ih =>
    cases hc : isBlank c with
    | false =>
      rw [trimStart_of_head (by simpa using hc), trimStart_of_head (by simpa using hc)]
    | true =>
      have hg : ¬IsGap a := fun hg => h (isGap_cons.mpr ⟨hc, hg⟩)
      simpa only [trimStart, List.cons_append, List.dropWhile_cons, hc, ↓reduceIte] using ih hg

theorem not_isGap_of_last {a : List Char} (hn : a ≠ [])
    (hl : ∀ c ∈ a.getLast?, isBlank c = false) : ¬IsGap a := by
  intro hg
  have hb := hl _ (List.getLast?_eq_some_getLast hn)
  rw [hg _ (List.getLast_mem hn)] at hb
  cases hb

theorem trimStart_gap {g : List Char} (hg : IsGap g) : trimStart g = [] := by
  have h := trimStart_gap_append hg []
  rwa [List.append_nil] at h

theorem isGap_of_trimStart {cs : List Char} (h : IsGap (trimStart cs)) : IsGap cs := by
  have hs := List.takeWhile_append_dropWhile (p := isBlank) (l := cs)
  rw [← hs, isGap_append]
  exact ⟨List.all_eq_true.mp List.all_takeWhile, h⟩

theorem isGap_of_trim {cs : List Char} (h : trim cs = []) : IsGap cs := by
  have hr : trimStart (trimStart cs).reverse = [] := List.reverse_eq_nil_iff.mp h
  have hg : IsGap (trimStart (trimStart cs).reverse) := hr ▸ isGap_nil
  exact isGap_of_trimStart (isGap_reverse.mp (isGap_of_trimStart hg))

theorem trimEnd_append_gap {g : List Char} (hg : IsGap g) (cs : List Char) :
    trimEnd (cs ++ g) = trimEnd cs := by
  have h := trimStart_gap_append (isGap_reverse.mpr hg) cs.reverse
  simp only [trimStart] at h
  simp only [trimEnd, List.reverse_append, h]

theorem trimEnd_of_last {cs : List Char} (h : ∀ c ∈ cs.getLast?, isBlank c = false) :
    trimEnd cs = cs := by
  have hr : trimStart cs.reverse = cs.reverse := trimStart_of_head (by simpa using h)
  simp only [trimStart] at hr
  simp only [trimEnd, hr, List.reverse_reverse]

@[simp] theorem IsTrimmed.trim_eq {cs : List Char} (h : IsTrimmed cs) : trim cs = cs := by
  rw [trim, trimStart_of_head h.1, trimEnd_of_last h.2]

theorem trim_between {g cs h : List Char} (hg : IsGap g) (hc : IsTrimmed cs) (hh : IsGap h) :
    trim (g ++ cs ++ h) = cs := by
  rw [trim, List.append_assoc, trimStart_gap_append hg]
  cases cs with
  | nil => rw [List.nil_append, trimStart_gap hh]; rfl
  | cons c cs =>
    rw [trimStart_of_head (by simpa using hc.cons_of_head), trimEnd_append_gap hh,
      trimEnd_of_last hc.2]

theorem IsTrimmed.trim_spaced {cs : List Char} (h : IsTrimmed cs) :
    trim (' ' :: (cs ++ [' '])) = cs := trim_between (g := [' ']) isGap_space h isGap_space

theorem exists_trimStart (cs : List Char) : ∃ g, IsGap g ∧ cs = g ++ trimStart cs :=
  ⟨cs.takeWhile isBlank, List.all_eq_true.mp List.all_takeWhile,
    List.takeWhile_append_dropWhile.symm⟩

theorem exists_trimEnd (cs : List Char) : ∃ g, IsGap g ∧ cs = trimEnd cs ++ g := by
  obtain ⟨g, hg, hcs⟩ := exists_trimStart cs.reverse
  refine ⟨g.reverse, isGap_reverse.mpr hg, ?_⟩
  rw [trimEnd, ← List.reverse_append]
  exact List.reverse_eq_iff.mp hcs

theorem head?_trimStart (cs : List Char) : ∀ c ∈ (trimStart cs).head?, isBlank c = false := by
  intro c hc
  have h := List.head?_dropWhile_not isBlank cs
  rw [trimStart] at hc
  rw [Option.mem_def.mp hc] at h
  simpa using h

theorem exists_trim (cs : List Char) :
    ∃ g h, IsGap g ∧ IsGap h ∧ IsTrimmed (trim cs) ∧ cs = g ++ trim cs ++ h := by
  obtain ⟨g, hg, hstart⟩ := exists_trimStart cs
  obtain ⟨h, hh, hend⟩ := exists_trimEnd (trimStart cs)
  refine ⟨g, h, hg, hh, ⟨?_, ?_⟩, ?_⟩
  · intro c hc
    apply head?_trimStart cs
    have hhead : (trimEnd (trimStart cs)).head? = some c := hc
    rw [hend, List.head?_append, hhead]
    rfl
  · intro c hc
    apply head?_trimStart (trimStart cs).reverse
    rwa [trim, trimEnd, List.getLast?_reverse] at hc
  · rw [List.append_assoc, trim, ← hend]
    exact hstart

theorem isTrimmed_trim (cs : List Char) : IsTrimmed (trim cs) := by
  obtain ⟨_, _, _, _, htrimmed, _⟩ := exists_trim cs
  exact htrimmed

theorem trim_append_gap {g : List Char} (hg : IsGap g) (cs : List Char) :
    trim (cs ++ g) = trim cs := by
  obtain ⟨a, b, ha, hb, hcs, h⟩ := exists_trim cs
  calc trim (cs ++ g) = trim (a ++ trim cs ++ (b ++ g)) := by rw [← List.append_assoc, ← h]
    _ = trim cs := trim_between ha hcs (isGap_append.mpr ⟨hb, hg⟩)

end TableQuery.Text
