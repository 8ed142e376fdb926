import TableQuery.Query.Name
import TableQuery.Proofs.Text.Trim

/-! # Words at the front of a text

A word in capitals is found at the front of a text exactly where the text starts with
its letters in either case. What follows a text that ends in a whole word does not
change which words are found in it, as long as no name goes on there.
-/
namespace TableQuery.Text

theorem toNat_toUpper (c : Char) :
    c.toUpper.toNat = if 97 ≤ c.toNat ∧ c.toNat ≤ 122 then c.toNat - 32 else c.toNat := by
  have key : ('a'.val ≤ c.val ∧ c.val ≤ 'z'.val) ↔ 97 ≤ c.toNat ∧ c.toNat ≤ 122 := by
    simp only [UInt32.le_iff_toNat_le]
    exact Iff.rfl
  unfold Char.toUpper
  split
  · next h =>
    have hn := key.mp h
    rw [if_pos hn]
    change (c.val + ('A'.val - 'a'.val)).toNat = c.toNat - 32
    have hv : c.val.toNat = c.toNat := rfl
    have hd : ('A'.val - 'a'.val).toNat = 4294967264 := by decide
    rw [UInt32.toNat_add, hv, hd]
    omega
  · next h => rw [if_neg (fun hn => h (key.mpr hn))]

theorem isUpper_iff {c : Char} : c.isUpper = true ↔ 65 ≤ c.toNat ∧ c.toNat ≤ 90 :=
  decide_eq_true_iff

theorem isLower_iff {c : Char} : c.isLower = true ↔ 97 ≤ c.toNat ∧ c.toNat ≤ 122 := by
  refine Iff.trans Bool.and_eq_true_iff ?_
  exact and_congr decide_eq_true_iff decide_eq_true_iff

theorem isDigit_iff {c : Char} : c.isDigit = true ↔ 48 ≤ c.toNat ∧ c.toNat ≤ 57 :=
  Char.isDigit_iff_toNat

theorem isNameStart_iff {c : Char} : isNameStart c = true ↔
    (65 ≤ c.toNat ∧ c.toNat ≤ 90) ∨ (97 ≤ c.toNat ∧ c.toNat ≤ 122) ∨ c.toNat = 95 := by
  have ha : c.isAlpha = (c.isUpper || c.isLower) := rfl
  rw [isNameStart, ha, Bool.or_eq_true, Bool.or_eq_true, isUpper_iff, isLower_iff, beq_iff_eq,
    ← Char.toNat_inj, or_assoc]
  exact Iff.rfl

theorem isNameChar_iff {c : Char} : isNameChar c = true ↔
    (48 ≤ c.toNat ∧ c.toNat ≤ 57) ∨ (65 ≤ c.toNat ∧ c.toNat ≤ 90) ∨
      (97 ≤ c.toNat ∧ c.toNat ≤ 122) ∨ c.toNat = 95 := by
  have hsplit : isNameChar c = (isNameStart c || c.isDigit) := by
    rw [isNameChar, isNameStart, Char.isAlphanum, Bool.or_right_comm]
  rw [hsplit, Bool.or_eq_true, isNameStart_iff, isDigit_iff, or_comm]

theorem isBlank_iff {c : Char} : isBlank c = true ↔
    (9 ≤ c.toNat ∧ c.toNat ≤ 13) ∨ c.toNat = 0x20 ∨ c.toNat = 0xA0 ∨ c.toNat = 0x1680 ∨
      (0x2000 ≤ c.toNat ∧ c.toNat ≤ 0x200A) ∨ c.toNat = 0x2028 ∨ c.toNat = 0x2029 ∨
      c.toNat = 0x202F ∨ c.toNat = 0x205F ∨ c.toNat = 0x3000 ∨ c.toNat = 0xFEFF := by
  simp only [isBlank, Bool.or_eq_true, Bool.and_eq_true, decide_eq_true_eq, beq_iff_eq, or_assoc]

theorem not_isBlank_of_isNameChar {c : Char} (h : isNameChar c = true) : isBlank c = false := by
  rw [← Bool.not_eq_true, isBlank_iff]
  have hn := isNameChar_iff.mp h
  omega

theorem isNameStart_of_toUpper {c : Char} (h : c.toUpper.isUpper = true) :
    isNameStart c = true := by
  have hu := isUpper_iff.mp h
  rw [toNat_toUpper] at hu
  apply isNameStart_iff.mpr
  split at hu <;> omega

theorem isNameChar_of_isNameStart {c : Char} (h : isNameStart c = true) :
    isNameChar c = true := by
  simp only [isNameStart, isNameChar, Char.isAlphanum, Bool.or_eq_true] at h ⊢
  rcases h with h | h
  · exact Or.inl (Or.inl h)
  · exact Or.inr h

theorem isNameChar_of_toUpper {c : Char} (h : c.toUpper.isUpper = true) :
    isNameChar c = true := isNameChar_of_isNameStart (isNameStart_of_toUpper h)

theorem toUpper_not_isUpper_of_isBlank {c : Char} (h : isBlank c = true) :
    c.toUpper.isUpper = false := by
  rw [← Bool.not_eq_true]
  intro hu
  rw [not_isBlank_of_isNameChar (isNameChar_of_toUpper hu)] at h
  cases h

def IsCapital (w : List Char) : Prop := ∀ c ∈ w, c.isUpper = true

instance (w : List Char) : Decidable (IsCapital w) :=
  inferInstanceAs (Decidable (∀ c ∈ w, _))

theorem IsCapital.isNameChar {w : List Char} (h : IsCapital w) :
    ∀ c ∈ w, isNameChar c = true := by
  intro c hc
  have hupper := isUpper_iff.mp (h c hc)
  apply isNameChar_iff.mpr
  omega

theorem word?_eq_some_iff {w cs rest : List Char} :
    word? w cs = some rest ↔ ∃ a, cs = a ++ rest ∧ a.map Char.toUpper = w := by
  induction w generalizing cs with
  | nil =>
    constructor
    · intro h
      cases Option.some.inj h
      exact ⟨[], rfl, rfl⟩
    · rintro ⟨a, rfl, ha⟩
      rw [List.map_eq_nil_iff] at ha
      subst ha
      rfl
  | cons x w ih =>
    cases cs with
    | nil => simp [word?]
    | cons c cs =>
      by_cases hc : c.toUpper = x
      · simp only [word?, hc, beq_self_eq_true, ↓reduceIte, ih]
        constructor
        · rintro ⟨a, rfl, rfl⟩
          exact ⟨c :: a, rfl, by rw [List.map_cons, hc]⟩
        · rintro ⟨a, ha, hw⟩
          cases a with
          | nil => simp at hw
          | cons d a =>
            obtain ⟨rfl, rfl⟩ := List.cons.inj ha
            exact ⟨a, rfl, (List.cons.inj hw).2⟩
      · have hn : (c.toUpper == x) = false := by simpa using hc
        simp only [word?, hn, Bool.false_eq_true, ↓reduceIte]
        constructor
        · simp
        · rintro ⟨a, ha, hw⟩
          cases a with
          | nil => simp at hw
          | cons d a =>
            obtain ⟨rfl, rfl⟩ := List.cons.inj ha
            exact absurd (List.cons.inj hw).1 hc

theorem word?_append {w a : List Char} (h : a.map Char.toUpper = w) (rest : List Char) :
    word? w (a ++ rest) = some rest := word?_eq_some_iff.mpr ⟨a, rfl, h⟩

@[simp] theorem wordEnds_nil : wordEnds [] = true := rfl

theorem wordEnds_append_of_ne_nil {a : List Char} (h : a ≠ []) (b : List Char) :
    wordEnds (a ++ b) = wordEnds a := by
  cases a with
  | nil => exact absurd rfl h
  | cons c a => rfl

theorem wordEnds_gap_append {g : List Char} (hg : IsGap g) (hn : g ≠ []) (b : List Char) :
    wordEnds (g ++ b) = true := by
  cases g with
  | nil => exact absurd rfl hn
  | cons c g => exact (isGap_cons.mp hg).1

/-- A text that does not go on with a character of names, so that a name ends in front of it. -/
def NameEnds (cs : List Char) : Prop := ∀ c ∈ cs.head?, isNameChar c = false

instance (cs : List Char) : Decidable (NameEnds cs) := inferInstanceAs (Decidable (∀ c ∈ _, _))

theorem nameEnds_nil : NameEnds [] := by decide

theorem nameEnds_cons {c : Char} (h : isNameChar c = false) (cs : List Char) :
    NameEnds (c :: cs) := by
  intro d hd
  rwa [← Option.some.inj hd]

theorem nameEnds_of_wordEnds {cs : List Char} (h : wordEnds cs = true) : NameEnds cs := by
  cases cs with
  | nil => exact nameEnds_nil
  | cons c cs =>
    refine nameEnds_cons ?_ cs
    rw [← Bool.not_eq_true]
    intro hc
    rw [wordEnds, not_isBlank_of_isNameChar hc] at h
    cases h

theorem nameEnds_gap {g : List Char} (hg : IsGap g) : NameEnds g := by
  cases g with
  | nil => exact nameEnds_nil
  | cons c g => exact nameEnds_of_wordEnds (isGap_cons.mp hg).1

theorem NameEnds.append {a b : List Char} (ha : NameEnds a) (hb : NameEnds b) :
    NameEnds (a ++ b) := by
  cases a with
  | nil => exact hb
  | cons c a => exact nameEnds_cons (ha c rfl) (a ++ b)

theorem word?_of_append {w cs rest r : List Char} (hw : IsCapital w) (hr : NameEnds rest)
    (h : word? w (cs ++ rest) = some r) : ∃ b, r = b ++ rest ∧ word? w cs = some b := by
  obtain ⟨a, ha, rfl⟩ := word?_eq_some_iff.mp h
  rcases List.append_eq_append_iff.mp ha with ⟨d, rfl, hd⟩ | ⟨d, rfl, hd⟩
  · cases d with
    | nil => exact ⟨[], by simpa using hd.symm, by simpa using word?_append rfl []⟩
    | cons c d =>
      subst hd
      have hc : c.toUpper.isUpper = true := hw _ (List.mem_map_of_mem (by simp))
      have hname := hr c rfl
      rw [isNameChar_of_toUpper hc] at hname
      cases hname
  · exact ⟨d, hd, word?_append rfl d⟩

/-- Where a found word is followed by none of a text's own characters, it is the whole text. -/
theorem eq_of_word? {w cs rest r : List Char} (hw : IsCapital w) (he : NameEnds rest)
    (h : word? w (cs ++ rest) = some r) (hr : ∀ c ∈ r.head?, c ∉ cs) :
    cs.map Char.toUpper = w := by
  obtain ⟨b, rfl, hb⟩ := word?_of_append hw he h
  obtain ⟨a, rfl, ha⟩ := word?_eq_some_iff.mp hb
  cases b with
  | nil => rwa [List.append_nil]
  | cons c b => exact absurd (List.mem_append_right a List.mem_cons_self) (hr c rfl)

theorem eq_of_wordEnds {w cs rest r : List Char} (hw : IsCapital w)
    (hb : ∀ c ∈ cs, isBlank c = false) (he : NameEnds rest)
    (h : word? w (cs ++ rest) = some r) (hr : wordEnds r = true) : cs.map Char.toUpper = w := by
  refine eq_of_word? hw he h ?_
  intro c hc hm
  cases r with
  | nil => cases hc
  | cons d r =>
    cases Option.some.inj hc
    rw [wordEnds, hb c hm] at hr
    cases hr

theorem word?_cons_of_ne {x c : Char} (h : c.toUpper ≠ x) (w cs : List Char) :
    word? (x :: w) (c :: cs) = none := by
  rw [word?, if_neg (by simpa using h)]

theorem capitals_of_ascii {c : Char} (h : c.toNat < 128) : capitals c = [c.toUpper] := by
  unfold capitals
  split <;> first | rfl | omega

theorem capitals_of_isBlank {c : Char} (h : isBlank c = true) : capitals c = [c] := by
  have hblank := isBlank_iff.mp h
  have hupper : c.toUpper = c := by
    rw [← Char.toNat_inj, toNat_toUpper]
    split <;> omega
  unfold capitals
  split <;> first | rw [hupper] | omega

theorem upper_of_map_toUpper {w a : List Char} (hw : IsCapital w) (h : a.map Char.toUpper = w) :
    upper a = w := by
  subst h
  unfold upper
  induction a with
  | nil => rfl
  | cons c a ih =>
    have hc := isUpper_iff.mp (hw c.toUpper List.mem_cons_self)
    rw [toNat_toUpper] at hc
    have hascii : c.toNat < 128 := by split at hc <;> omega
    rw [List.flatMap_cons, capitals_of_ascii hascii, List.map_cons,
      ih fun d hd => hw d (List.mem_cons_of_mem _ hd)]
    rfl

theorem upper_gap {g : List Char} (h : IsGap g) : upper g = g := by
  unfold upper
  induction g with
  | nil => rfl
  | cons c g ih =>
    obtain ⟨hc, hg⟩ := isGap_cons.mp h
    rw [List.flatMap_cons, capitals_of_isBlank hc, ih hg]
    rfl

theorem blanks?_gap_append {g : List Char} (hg : IsGap g) (hn : g ≠ []) (cs : List Char) :
    blanks? (g ++ cs) = some (trimStart cs) := by
  cases g with
  | nil => exact absurd rfl hn
  | cons c g =>
    obtain ⟨hc, hg⟩ := isGap_cons.mp hg
    simp only [List.cons_append, blanks?, hc, ↓reduceIte, trimStart_gap_append hg]

theorem blanks?_eq_some {cs rest : List Char} (h : blanks? cs = some rest) :
    rest = trimStart cs ∧ ∃ g, g ≠ [] ∧ IsGap g ∧ cs = g ++ rest := by
  cases cs with
  | nil => cases h
  | cons c cs =>
    simp only [blanks?] at h
    split at h
    · next hc =>
      cases Option.some.inj h
      refine ⟨(List.dropWhile_cons_of_pos hc).symm, c :: cs.takeWhile isBlank, by simp, ?_, ?_⟩
      · exact isGap_cons.mpr ⟨hc, List.all_eq_true.mp List.all_takeWhile⟩
      · simp only [List.cons_append, trimStart, List.takeWhile_append_dropWhile]
    · cases h

theorem blanks?_of_append {a b rest : List Char} (hn : a ≠ [])
    (h : blanks? (a ++ b) = some rest) : blanks? a = some (trimStart a) := by
  cases a with
  | nil => exact absurd rfl hn
  | cons c a =>
    simp only [List.cons_append, blanks?] at h
    split at h
    · next hc => rw [blanks?, if_pos hc, trimStart, trimStart, List.dropWhile_cons_of_pos hc]
    · cases h

end TableQuery.Text
