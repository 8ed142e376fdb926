import TableQuery.Data.Json.Reader
import TableQuery.Proofs.Number.WrittenNumber

/-! # Where JSON texts end

A string ends at its first quote that is not escaped, and a number at the first character that
cannot stand in one. So the text of a string, a number or a list shows where it ends, whatever
follows it, and what was written is the same where the texts are.
-/
namespace TableQuery.Json

def pushUnit (unit : Nat) (read : List Nat × List Char) : List Nat × List Char :=
  (unit :: read.1, read.2)

theorem unitOfHex?_hexDigit :
    ∀ n < 0x20, unitOfHex? '0' '0' (hexDigit (n / 16)) (hexDigit (n % 16)) = some n := by
  decide

theorem stringUnits_letter {e : Char} {u : Nat} (hletter : e ≠ 'u') (h : escaped? e = some u)
    (rest : List Char) : stringUnits ('\\' :: e :: rest) = (stringUnits rest).map (pushUnit u) := by
  rw [stringUnits, h]
  · cases stringUnits rest <;> rfl
  · intro a b c d rest hu
    exact absurd hu hletter
  · intro hu
    exact absurd hu hletter

theorem stringUnits_hex {a b c d : Char} {u : Nat} (h : unitOfHex? a b c d = some u)
    (rest : List Char) :
    stringUnits ('\\' :: 'u' :: a :: b :: c :: d :: rest) =
      (stringUnits rest).map (pushUnit u) := by
  rw [stringUnits, h]
  cases stringUnits rest <;> rfl

theorem stringUnits_plain {c : Char} (hquote : c ≠ '"') (hescape : c ≠ '\\')
    (hcontrol : ¬ c.toNat < 0x20) (rest : List Char) :
    stringUnits (c :: rest) = (stringUnits rest).map (pushUnit c.toNat) := by
  rw [stringUnits, if_neg hcontrol]
  · cases stringUnits rest <;> rfl
  all_goals intros; contradiction

theorem stringUnits_escapeChar (c : Char) (rest : List Char) :
    stringUnits (escapeChar c ++ rest) = (stringUnits rest).map (pushUnit c.toNat) := by
  unfold escapeChar
  split
  case h_8 =>
    split
    · next h => exact stringUnits_hex (unitOfHex?_hexDigit _ h) rest
    · next hquote hescape _ _ _ _ _ h =>
      refine stringUnits_plain ?_ ?_ h rest
      · rintro rfl
        exact hquote rfl
      · rintro rfl
        exact hescape rfl
  all_goals
    rename_i h
    rw [h]
    exact stringUnits_letter (by decide) rfl rest

theorem stringUnits_escaped (cs rest : List Char) :
    stringUnits (cs.flatMap escapeChar ++ '"' :: rest) = .ok (cs.map Char.toNat, rest) := by
  induction cs with
  | nil => rfl
  | cons c cs ih =>
    rw [List.flatMap_cons, List.append_assoc, stringUnits_escapeChar, ih]
    rfl

theorem quoted_cancel {cs ds rest after : List Char}
    (h : quoted cs ++ rest = quoted ds ++ after) : cs = ds ∧ rest = after := by
  have hinner : cs.flatMap escapeChar ++ '"' :: rest = ds.flatMap escapeChar ++ '"' :: after := by
    simpa [quoted] using h
  have hread := congrArg stringUnits hinner
  rw [stringUnits_escaped, stringUnits_escaped, Except.ok.injEq, Prod.mk.injEq] at hread
  exact ⟨List.map_injective_iff.mpr (fun _ _ => Char.toNat_inj.mp) hread.1, hread.2⟩

/-- Whether a text can stand behind an item of a list. -/
def Delimited (cs : List Char) : Prop := ∀ c, cs.head? = some c → c = ',' ∨ c = ']'

theorem delimited_comma (cs : List Char) : Delimited (',' :: cs) := by
  intro c hc
  exact Or.inl (Option.some.inj hc).symm

theorem delimited_bracket (cs : List Char) : Delimited (']' :: cs) := by
  intro c hc
  exact Or.inr (Option.some.inj hc).symm

theorem span_numberChars {x : Float} (hx : Number.isFinite x = true) {rest : List Char}
    (hrest : Delimited rest) :
    (numberChars x ++ rest).takeWhile Number.isNumberChar = numberChars x ∧
      (numberChars x ++ rest).dropWhile Number.isNumberChar = rest := by
  apply Text.span_append (Number.numberChars_chars hx).1
  intro c hc
  rcases hrest c hc with rfl | rfl <;> rfl

theorem numberChars_cancel {x y : Float} (hx : Number.isFinite x = true)
    (hy : Number.isFinite y = true) {rest after : List Char} (hrest : Delimited rest)
    (hafter : Delimited after) (h : numberChars x ++ rest = numberChars y ++ after) :
    Number.same x y = true ∧ rest = after := by
  obtain ⟨htakeX, hdropX⟩ := span_numberChars hx hrest
  obtain ⟨htakeY, hdropY⟩ := span_numberChars hy hafter
  rw [h] at htakeX hdropX
  exact ⟨(Number.numberChars_eq_iff hx hy).mp (htakeX.symm.trans htakeY),
    hdropX.symm.trans hdropY⟩

theorem commas_cons (part : List Char) (parts : List (List Char)) :
    commas (part :: parts) = part ++ parts.flatMap (',' :: ·) := by
  unfold commas
  induction parts generalizing part with
  | nil => simp
  | cons next parts ih =>
    rw [List.intercalate_cons_cons, ih, List.flatMap_cons]
    simp

section
variable {α : Type} {text : α → List Char} {R : α → α → Prop} {a b : α} {as bs : List α}
  {rest after : List Char}

/-- Two items whose texts show where they end, and are the same only if the items are related. -/
def Cancels (text : α → List Char) (R : α → α → Prop) (a b : α) : Prop :=
  ∀ rest after, Delimited rest → Delimited after →
    text a ++ rest = text b ++ after → R a b ∧ rest = after

theorem delimited_items (as : List α) (rest : List Char) :
    Delimited ((as.map text).flatMap (',' :: ·) ++ ']' :: rest) := by
  cases as with
  | nil => exact delimited_bracket rest
  | cons a as =>
    rw [List.map_cons, List.flatMap_cons]
    exact delimited_comma _

theorem items_cancel (hcancel : ∀ a ∈ as, ∀ b ∈ bs, Cancels text R a b)
    (h : (as.map text).flatMap (',' :: ·) ++ ']' :: rest =
      (bs.map text).flatMap (',' :: ·) ++ ']' :: after) : List.Forall₂ R as bs ∧ rest = after := by
  induction as generalizing bs with
  | nil =>
    cases bs with
    | nil => exact ⟨List.Forall₂.nil, (List.cons.inj h).2⟩
    | cons b bs => exact absurd (List.cons.inj h).1 (by decide)
  | cons a as ih =>
    cases bs with
    | nil => exact absurd (List.cons.inj h).1 (by decide)
    | cons b bs =>
      rw [List.map_cons, List.map_cons, List.flatMap_cons, List.flatMap_cons, List.append_assoc,
        List.append_assoc] at h
      obtain ⟨hhead, htail⟩ := hcancel a List.mem_cons_self b List.mem_cons_self _ _
        (delimited_items as rest) (delimited_items bs after) (List.cons.inj h).2
      obtain ⟨hitems, hrest⟩ := ih (fun a ha b hb =>
        hcancel a (List.mem_cons_of_mem _ ha) b (List.mem_cons_of_mem _ hb)) htail
      exact ⟨List.Forall₂.cons hhead hitems, hrest⟩

def bracketed (parts : List (List Char)) : List Char := '[' :: (commas parts ++ [']'])

theorem bracketed_cons (part : List Char) (parts : List (List Char)) (rest : List Char) :
    bracketed (part :: parts) ++ rest =
      '[' :: (part ++ (parts.flatMap (',' :: ·) ++ ']' :: rest)) := by
  unfold bracketed
  rw [commas_cons]
  simp

theorem bracketed_cancel (hcancel : ∀ a ∈ as, ∀ b ∈ bs, Cancels text R a b)
    (hfirst : ∀ a, ∃ c cs, text a = c :: cs ∧ c ≠ ']')
    (h : bracketed (as.map text) ++ rest = bracketed (bs.map text) ++ after) :
    List.Forall₂ R as bs ∧ rest = after := by
  cases as with
  | nil =>
    cases bs with
    | nil => exact ⟨List.Forall₂.nil, List.append_cancel_left h⟩
    | cons b bs =>
      obtain ⟨c, cs, htext, hc⟩ := hfirst b
      rw [List.map_cons, bracketed_cons, htext] at h
      exact absurd (List.cons.inj (List.cons.inj h).2).1.symm hc
  | cons a as =>
    cases bs with
    | nil =>
      obtain ⟨c, cs, htext, hc⟩ := hfirst a
      rw [List.map_cons, bracketed_cons, htext] at h
      exact absurd (List.cons.inj (List.cons.inj h).2).1 hc
    | cons b bs =>
      rw [List.map_cons, List.map_cons, bracketed_cons, bracketed_cons] at h
      apply items_cancel hcancel
      rw [List.map_cons, List.map_cons, List.flatMap_cons, List.flatMap_cons, List.append_assoc,
        List.append_assoc]
      exact congrArg (',' :: ·) (List.cons.inj h).2

end

end TableQuery.Json
