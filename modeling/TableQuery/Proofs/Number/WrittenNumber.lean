import TableQuery.Proofs.Number.Rank
import TableQuery.Proofs.Number.ShortestDecimal

/-! # Written numbers read back

Wherever the point of a decimal stands, its text is read as a decimal of the same value. So the
text of a finite number reads back to that number, and two finite numbers are written alike only
if they are equal.
-/
namespace TableQuery.Number

def EndsDigits (cs : List Char) : Prop := ∀ c, cs.head? = some c → c.isDigit = false

theorem endsDigits_nil : EndsDigits [] := by
  intro c hc
  cases hc

theorem endsDigits_cons {c : Char} (hc : c.isDigit = false) (cs : List Char) :
    EndsDigits (c :: cs) := by
  intro first hfirst
  cases hfirst
  exact hc

theorem splitPoint_pointed {whole places rest : List Char}
    (hwhole : ∀ c ∈ whole, c.isDigit = true) (hplaces : ∀ c ∈ places, c.isDigit = true)
    (hrest : EndsDigits rest) :
    splitPoint (whole ++ '.' :: (places ++ rest)) = (whole, some places, rest) := by
  obtain ⟨htake, hdrop⟩ := Text.span_append hwhole (endsDigits_cons (c := '.') rfl (places ++ rest))
  obtain ⟨htake', hdrop'⟩ := Text.span_append hplaces hrest
  unfold splitPoint
  simp only [htake, hdrop, htake', hdrop']

theorem splitPoint_power {whole : List Char} (hwhole : ∀ c ∈ whole, c.isDigit = true)
    (rest : List Char) : splitPoint (whole ++ 'e' :: rest) = (whole, none, 'e' :: rest) := by
  obtain ⟨htake, hdrop⟩ := Text.span_append hwhole (endsDigits_cons (c := 'e') rfl rest)
  unfold splitPoint
  simp only [htake, hdrop]
  rfl

theorem unsigned?_of_splitPoint {cs whole rest : List Char} {fraction : Option (List Char)}
    {e : Int} (hsplit : splitPoint cs = (whole, fraction, rest)) (hwhole : whole ≠ [])
    (hpower : exponent? rest = some e) :
    unsigned? cs =
      some ⟨digitsValue (whole ++ fraction.getD []), e - (fraction.getD []).length⟩ := by
  unfold unsigned?
  rw [hsplit]
  simp [hwhole, hpower]

def powerChars (e : Int) : List Char :=
  'e' :: (if e < 0 then '-' else '+') :: Nat.toDigits 10 e.natAbs

theorem exponent?_powerChars (e : Int) : exponent? (powerChars e) = some e := by
  have hdigits : (Nat.toDigits 10 e.natAbs).all Char.isDigit = true :=
    List.all_eq_true.mpr fun c hc => isDigit_toDigits hc
  have hsplit : splitSign ((if e < 0 then '-' else '+') :: Nat.toDigits 10 e.natAbs) =
      (decide (e < 0), Nat.toDigits 10 e.natAbs) := by
    split
    · next h => rw [decide_eq_true h]; rfl
    · next h => rw [decide_eq_false h]; rfl
  have hletter : ('e'.toLower == 'e') = true := rfl
  unfold powerChars exponent?
  simp only [hletter, hsplit, hdigits, digitsValue_toDigits,
    List.isEmpty_eq_false_iff.mpr Nat.toDigits_ne_nil, Bool.not_true, Bool.or_self,
    Bool.false_eq_true, ↓reduceIte, decide_eq_true_eq]
  split
  · next h => congr 1; omega
  · next h => congr 1; omega

theorem isDigit_zeros {k : Nat} {c : Char} (h : c ∈ zeros k) : c.isDigit = true := by
  rw [List.eq_of_mem_replicate h]
  rfl

theorem digitsValue_append_zeros (cs : List Char) (k : Nat) :
    digitsValue (cs ++ zeros k) = digitsValue cs * 10 ^ k := by
  induction k with
  | zero => simp [zeros]
  | succ k ih =>
    have hzeros : cs ++ zeros (k + 1) = (cs ++ zeros k) ++ ['0'] := by
      rw [zeros, List.replicate_succ', List.append_assoc]
      rfl
    have hlast : digitsValue ((cs ++ zeros k) ++ ['0']) = digitsValue (cs ++ zeros k) * 10 :=
      List.foldl_append
    rw [hzeros, hlast, ih, Nat.pow_succ, Nat.mul_assoc]

theorem digitsValue_zeros_append (k : Nat) (cs : List Char) :
    digitsValue (zeros k ++ cs) = digitsValue cs := by
  have hzeros : digitsValue (zeros k) = 0 := by
    have h := digitsValue_append_zeros [] k
    rwa [List.nil_append, show digitsValue [] = 0 from rfl, Nat.zero_mul] at h
  unfold digitsValue at hzeros ⊢
  rw [List.foldl_append, hzeros]

theorem isDigit_of_mem_zeros_append {n k : Nat} {c : Char} (h : c ∈ zeros k ++ Nat.toDigits 10 n) :
    c.isDigit = true := by
  rcases List.mem_append.mp h with h | h
  · exact isDigit_zeros h
  · exact isDigit_toDigits h

section
variable {n k : Nat}

theorem unsigned?_trailing :
    unsigned? (Nat.toDigits 10 n ++ zeros k) = some ⟨n * 10 ^ k, 0⟩ := by
  have hdigits : ∀ c ∈ Nat.toDigits 10 n ++ zeros k, c.isDigit = true := by
    intro c hc
    rcases List.mem_append.mp hc with hc | hc
    · exact isDigit_toDigits hc
    · exact isDigit_zeros hc
  rw [unsigned?_digits (by simp) hdigits, digitsValue_append_zeros, digitsValue_toDigits]

/-- Digits that are split by a point read as the digits, with the places in the exponent. -/
theorem unsigned?_pointed {e : Int} {rest : List Char} (hk : 0 < k)
    (hrest : EndsDigits rest) (hpower : exponent? rest = some e) :
    unsigned? ((Nat.toDigits 10 n).take k ++ '.' :: ((Nat.toDigits 10 n).drop k ++ rest)) =
      some ⟨n, e - ((Nat.toDigits 10 n).length - k : Nat)⟩ := by
  have hwhole : (Nat.toDigits 10 n).take k ≠ [] := by
    rw [Ne, List.take_eq_nil_iff, not_or]
    exact ⟨Nat.ne_of_gt hk, Nat.toDigits_ne_nil⟩
  have hsplit := splitPoint_pointed
    (fun c hc => isDigit_toDigits (List.mem_of_mem_take (i := k) (l := Nat.toDigits 10 n) hc))
    (fun c hc => isDigit_toDigits (List.mem_of_mem_drop (i := k) (l := Nat.toDigits 10 n) hc)) hrest
  rw [unsigned?_of_splitPoint hsplit hwhole hpower, Option.getD_some, List.take_append_drop,
    digitsValue_toDigits, List.length_drop]

theorem unsigned?_leading : unsigned? ('0' :: '.' :: (zeros k ++ Nat.toDigits 10 n)) =
    some ⟨n, -((k + (Nat.toDigits 10 n).length : Nat) : Int)⟩ := by
  have hwhole : ∀ c ∈ ['0'], c.isDigit = true := by simp
  have hsplit := splitPoint_pointed hwhole
    (fun c hc => isDigit_of_mem_zeros_append (n := n) (k := k) hc) endsDigits_nil
  rw [List.append_nil] at hsplit
  have hvalue : digitsValue (['0'] ++ (zeros k ++ Nat.toDigits 10 n)) = n := by
    have h := digitsValue_zeros_append (k + 1) (Nat.toDigits 10 n)
    rwa [digitsValue_toDigits] at h
  have hlength : (zeros k).length = k := List.length_replicate
  have hread := unsigned?_of_splitPoint hsplit (by simp) (show exponent? [] = some 0 from rfl)
  rwa [Option.getD_some, hvalue, List.length_append, hlength, Int.zero_sub] at hread

theorem unsigned?_power (e : Int) :
    unsigned? (Nat.toDigits 10 n ++ powerChars e) = some ⟨n, e⟩ := by
  have hsplit := splitPoint_power (fun c hc => isDigit_toDigits (n := n) hc)
    ((if e < 0 then '-' else '+') :: Nat.toDigits 10 e.natAbs)
  rw [powerChars, unsigned?_of_splitPoint hsplit Nat.toDigits_ne_nil (exponent?_powerChars e),
    Option.getD_none, List.append_nil, digitsValue_toDigits, List.length_nil, Int.natCast_zero,
    Int.sub_zero]

end

theorem unsigned?_layout {d : Decimal} (hd : d.digits ≠ 0) :
    ∃ read, unsigned? (layout d) = some read ∧ read.word = d.word := by
  obtain ⟨n, e⟩ := d
  have hcount : 0 < (Nat.toDigits 10 n).length := List.length_pos_of_ne_nil Nat.toDigits_ne_nil
  unfold layout
  dsimp only
  split
  · next h =>
    refine ⟨_, unsigned?_trailing, ?_⟩
    rw [Decimal.word_mul_pow hd, Int.zero_add, Int.toNat_of_nonneg h.1]
  refine ⟨⟨n, e⟩, ?_, rfl⟩
  split
  · next h =>
    have hread := unsigned?_pointed (n := n) (k := (e + (Nat.toDigits 10 n).length).toNat) (e := 0)
      (by omega) endsDigits_nil rfl
    rw [List.append_nil] at hread
    rw [hread]
    congr 2
    omega
  split
  · refine unsigned?_leading.trans ?_
    congr 2
    omega
  split
  · refine (unsigned?_power _).trans ?_
    congr 2
    omega
  · have hread := unsigned?_pointed (n := n) Nat.one_pos (endsDigits_cons rfl _)
      (exponent?_powerChars (e + (Nat.toDigits 10 n).length - 1))
    rw [List.append_assoc, List.cons_append]
    refine hread.trans ?_
    congr 2
    omega

/-- Whether a character can stand in the text of a finite number. -/
def isNumberChar (c : Char) : Bool := c.isDigit || c == '-' || c == '+' || c == '.' || c == 'e'

theorem isNumberChar_of_isDigit {c : Char} (h : c.isDigit = true) : isNumberChar c = true := by
  unfold isNumberChar
  rw [h]
  rfl

theorem exists_cons_layout (d : Decimal) : ∃ c cs, layout d = c :: cs ∧ c.isDigit = true := by
  obtain ⟨c, cs, hdigits, hc⟩ := exists_cons_toDigits d.digits
  unfold layout
  dsimp only
  rw [hdigits]
  split
  · exact ⟨c, _, rfl, hc⟩
  split
  · next h =>
    obtain ⟨k, hk⟩ : ∃ k, (d.exponent + (c :: cs).length).toNat = k + 1 :=
      Nat.exists_eq_succ_of_ne_zero (by omega)
    rw [hk]
    exact ⟨c, _, rfl, hc⟩
  split
  · exact ⟨'0', _, rfl, rfl⟩
  split
  · exact ⟨c, _, rfl, hc⟩
  · exact ⟨c, _, rfl, hc⟩

theorem isNumberChar_of_mem_layout {d : Decimal} {c : Char} (h : c ∈ layout d) :
    isNumberChar c = true := by
  have hdigits {n : Nat} (hc : c ∈ Nat.toDigits 10 n) : isNumberChar c = true :=
    isNumberChar_of_isDigit (isDigit_toDigits hc)
  have htake {n k : Nat} (hc : c ∈ (Nat.toDigits 10 n).take k) : isNumberChar c = true :=
    hdigits (List.mem_of_mem_take hc)
  have hdrop {n k : Nat} (hc : c ∈ (Nat.toDigits 10 n).drop k) : isNumberChar c = true :=
    hdigits (List.mem_of_mem_drop hc)
  have hzeros {k : Nat} (hc : c ∈ zeros k) : isNumberChar c = true :=
    isNumberChar_of_isDigit (isDigit_zeros hc)
  have hpower {e : Int} (hc : c ∈ powerChars e) : isNumberChar c = true := by
    unfold powerChars at hc
    rcases List.mem_cons.mp hc with rfl | hc
    · rfl
    rcases List.mem_cons.mp hc with rfl | hc
    · split <;> rfl
    · exact hdigits hc
  unfold layout at h
  dsimp only at h
  split at h
  · exact (List.mem_append.mp h).elim hdigits hzeros
  split at h
  · rcases List.mem_append.mp h with h | h
    · exact htake h
    rcases List.mem_cons.mp h with rfl | h
    · rfl
    · exact hdrop h
  split at h
  · rcases List.mem_cons.mp h with rfl | h
    · rfl
    rcases List.mem_cons.mp h with rfl | h
    · rfl
    · exact (List.mem_append.mp h).elim hzeros hdigits
  rcases List.mem_append.mp h with h | h
  · split at h
    · exact hdigits h
    rcases List.mem_append.mp h with h | h
    · exact htake h
    rcases List.mem_cons.mp h with rfl | h
    · rfl
    · exact hdrop h
  · exact hpower h

def wordChars (word : Nat) : List Char := if word = 0 then ['0'] else layout (shortest word)

theorem textChars_of_isFinite {x : Float} (h : isFinite x = true) :
    textChars x = if isNegative x && magnitude x != 0 then '-' :: wordChars (magnitude x)
      else wordChars (magnitude x) := by
  have hword : magnitude x < infiniteWord := of_decide_eq_true h
  unfold textChars wordChars
  rw [isNaN_of_isFinite h, if_neg (by decide)]
  dsimp only
  rw [if_neg (Nat.ne_of_lt hword)]

theorem exists_cons_wordChars (word : Nat) :
    ∃ c cs, wordChars word = c :: cs ∧ c.isDigit = true := by
  unfold wordChars
  split
  · exact ⟨'0', [], rfl, rfl⟩
  · exact exists_cons_layout _

theorem unsigned?_wordChars {word : Nat} (h : word < infiniteWord) :
    ∃ read, unsigned? (wordChars word) = some read ∧ read.word = word := by
  unfold wordChars
  split
  · next hzero =>
    subst hzero
    exact ⟨⟨0, 0⟩, rfl, rfl⟩
  · next hzero =>
    have hword := word_shortest hzero h
    have hdigits := Decimal.digits_ne_zero_of_word (hword.trans_ne hzero)
    obtain ⟨read, hread, hsame⟩ := unsigned?_layout hdigits
    exact ⟨read, hread, hsame.trans hword⟩

theorem ofDecimalText?_textChars {x : Float} (h : isFinite x = true) :
    ofDecimalText? (textChars x) =
      some (ofWord (isNegative x && magnitude x != 0) (magnitude x)) := by
  obtain ⟨read, hread, hword⟩ := unsigned?_wordChars (of_decide_eq_true h)
  obtain ⟨c, cs, hchars, hc⟩ := exists_cons_wordChars (magnitude x)
  rw [textChars_of_isFinite h]
  unfold ofDecimalText?
  cases isNegative x && magnitude x != 0 with
  | true =>
    rw [if_pos rfl]
    simp only [splitSign, hread, Option.map_some, Decimal.toFloat, hword]
  | false =>
    rw [if_neg (by decide), hchars, splitSign_of_isDigit hc, ← hchars]
    simp only [hread, Option.map_some, Decimal.toFloat, hword]

theorem same_of_textChars {x y : Float} (hx : isFinite x = true) (hy : isFinite y = true)
    (h : textChars x = textChars y) : same x y = true := by
  have hwordX : magnitude x < infiniteWord := of_decide_eq_true hx
  have hwordY : magnitude y < infiniteWord := of_decide_eq_true hy
  have hread := ofDecimalText?_textChars hx
  rw [h, ofDecimalText?_textChars hy, Option.some.injEq] at hread
  have hmagnitude := congrArg magnitude hread
  rw [magnitude_ofWord _ (Nat.le_of_lt hwordY), magnitude_ofWord _ (Nat.le_of_lt hwordX)]
    at hmagnitude
  have hsign := congrArg isNegative hread
  rw [isNegative_ofWord _ (Nat.le_of_lt hwordY), isNegative_ofWord _ (Nat.le_of_lt hwordX)] at hsign
  refine same_iff.mpr ⟨isNaN_of_isFinite hx, isNaN_of_isFinite hy, hmagnitude.symm, ?_⟩
  by_cases hzero : magnitude x = 0
  · exact Or.inl hzero
  · right
    rw [hmagnitude, bne_iff_ne.mpr hzero, Bool.and_true, Bool.and_true] at hsign
    exact hsign.symm

theorem numberChars_of_isFinite {x : Float} (h : isFinite x = true) :
    Json.numberChars x = textChars x := if_pos h

/-- A finite number is written in characters of numbers, with a digit or a minus sign first. -/
theorem numberChars_chars {x : Float} (h : isFinite x = true) :
    (∀ c ∈ Json.numberChars x, isNumberChar c = true) ∧
      ∃ c cs, Json.numberChars x = c :: cs ∧ (c.isDigit = true ∨ c = '-') := by
  have hchars : ∀ c ∈ wordChars (magnitude x), isNumberChar c = true := by
    intro c hc
    unfold wordChars at hc
    split at hc
    · rw [List.mem_singleton.mp hc]
      rfl
    · exact isNumberChar_of_mem_layout hc
  obtain ⟨c, cs, hcons, hc⟩ := exists_cons_wordChars (magnitude x)
  rw [numberChars_of_isFinite h, textChars_of_isFinite h]
  split
  · refine ⟨List.forall_mem_cons.mpr ⟨rfl, hchars⟩, '-', _, rfl, Or.inr rfl⟩
  · exact ⟨hchars, c, cs, hcons, Or.inl hc⟩

theorem numberChars_eq_iff {x y : Float} (hx : isFinite x = true) (hy : isFinite y = true) :
    Json.numberChars x = Json.numberChars y ↔ same x y = true := by
  refine ⟨fun h => ?_, numberChars_of_same⟩
  rw [numberChars_of_isFinite hx, numberChars_of_isFinite hy] at h
  exact same_of_textChars hx hy h

end TableQuery.Number
