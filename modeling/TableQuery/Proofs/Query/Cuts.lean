import TableQuery.Proofs.Query.Balance

/-! # Cutting a composed text

A text is quiet in front of another when no word is found at a place of it where one
may start. A quiet text is kept as it stands, and the cuts behind it are those of what
follows; at a word that is found and cuts, one piece ends and the next begins.
-/
namespace TableQuery.Nesting
open Text
variable {σ κ : Type} (find : σ → List Char → Option (σ × Option κ × Nat))

def startBehind (start : Bool) (cs : List Char) : Bool := cs.foldl (fun _ c => isBlank c) start

/-- No word is found in a text that stands in front of another. -/
def Quiet (s : σ) (after : List Char) : Nesting → Bool → List Char → Prop
  | _, _, [] => True
  | n, start, c :: cs =>
    (start = true → n.isTop c = true → find s (c :: (cs ++ after)) = none) ∧
      Quiet s after (n.next c) (isBlank c) cs

variable {find} {s s' : σ} {n : Nesting} {start : Bool} {after : List Char}

@[simp] theorem startBehind_nil (start : Bool) : startBehind start [] = start := rfl

@[simp] theorem startBehind_cons (start : Bool) (c : Char) (cs : List Char) :
    startBehind start (c :: cs) = startBehind (isBlank c) cs := rfl

theorem startBehind_append (start : Bool) (a b : List Char) :
    startBehind start (a ++ b) = startBehind (startBehind start a) b := List.foldl_append

theorem startBehind_eq_getLast? (start : Bool) (cs : List Char) :
    startBehind start cs = (cs.getLast?.map isBlank).getD start := by
  induction cs generalizing start with
  | nil => rfl
  | cons c cs ih =>
    rw [startBehind_cons, ih, getLast?_cons_getD]

theorem startBehind_gap {g : List Char} (hg : IsGap g) (hn : g ≠ []) (start : Bool) :
    startBehind start g = true := by
  rw [startBehind_eq_getLast?, List.getLast?_eq_some_getLast hn]
  exact hg _ (List.getLast_mem hn)

theorem startBehind_of_last {cs : List Char} (hn : cs ≠ [])
    (hl : ∀ c ∈ cs.getLast?, isBlank c = false) (start : Bool) : startBehind start cs = false := by
  have hlast := List.getLast?_eq_some_getLast hn
  rw [startBehind_eq_getLast?, hlast]
  exact hl _ hlast

theorem startBehind_true_iff {cs : List Char} :
    startBehind true cs = true ↔ ∀ c ∈ cs.getLast?, isBlank c = true := by
  rw [startBehind_eq_getLast?]
  cases cs.getLast? <;> simp

theorem quiet_append {a b : List Char} :
    Quiet find s after n start (a ++ b) ↔
      Quiet find s (b ++ after) n start a ∧
        Quiet find s after (behind n a) (startBehind start a) b := by
  induction a generalizing n start with
  | nil => simp [Quiet]
  | cons c a ih => simp only [List.cons_append, Quiet, ih, List.append_assoc, behind_cons,
      startBehind_cons, and_assoc]

/-- A text is quiet when no word is found behind any part of it where one may start. -/
theorem quiet_of_splits {cs : List Char}
    (h : ∀ a c b, cs = a ++ c :: b → startBehind start a = true → (behind n a).isTop c = true →
      find s (c :: b ++ after) = none) : Quiet find s after n start cs := by
  induction cs generalizing n start with
  | nil => trivial
  | cons c cs ih =>
    refine ⟨fun hs ht => h [] c cs rfl hs ht, ih ?_⟩
    intro a d b hd hs ht
    exact h (c :: a) d b (by rw [hd]; rfl) hs ht

theorem quiet_gap (hb : ∀ c cs, isBlank c = true → find s (c :: cs) = none) {g : List Char}
    (hg : IsGap g) : Quiet find s after n start g := by
  apply quiet_of_splits
  intro a c b hab _ _
  exact hb c _ (hg c (by rw [hab]; simp))

theorem quiet_of_noBlank {cs : List Char} (hc : ∀ c ∈ cs, isBlank c = false)
    (hf : start = true → find s (cs ++ after) = none) : Quiet find s after n start cs := by
  apply quiet_of_splits
  intro a c b hab hs _
  subst hab
  cases hl : a.getLast? with
  | none =>
    obtain rfl := List.getLast?_eq_none_iff.mp hl
    exact hf hs
  | some d =>
    rw [startBehind_eq_getLast?, hl] at hs
    have hd := hc d (List.mem_append_left _ (List.mem_of_getLast? hl))
    simp only [Option.map_some, Option.getD_some, hd, Bool.false_eq_true] at hs

theorem quiet_of_hidden {cs : List Char} (h : Hidden n cs) :
    Quiet find s after n start cs := by
  apply quiet_of_splits
  intro a c b hab _ ht
  rw [h a c b hab] at ht
  cases ht

theorem cutWords_skip (s : σ) (n : Nesting) (start : Bool) (a b : List Char) :
    cutWords find n start a.length s (a ++ b) =
      cutWords find (behind n a) (startBehind start a) 0 s b := by
  induction a generalizing n start with
  | nil => rfl
  | cons c a ih =>
    simp only [List.cons_append, List.length_cons, cutWords, ih]
    rfl

theorem cutWords_quiet {cs : List Char} (h : Quiet find s after n start cs) :
    cutWords find n start 0 s (cs ++ after) =
      (cs ++ (cutWords find (behind n cs) (startBehind start cs) 0 s after).1,
        (cutWords find (behind n cs) (startBehind start cs) 0 s after).2) := by
  induction cs generalizing n start with
  | nil => rfl
  | cons c cs ih =>
    have hf : (if start && n.isTop c then find s (c :: (cs ++ after)) else none) = none := by
      cases hs : start && n.isTop c with
      | false => rfl
      | true =>
        rw [Bool.and_eq_true] at hs
        exact h.1 hs.1 hs.2
    simp only [List.cons_append, cutWords, hf, ih h.2]
    rfl

theorem cutWords_cut {key : κ} {c : Char} {w : List Char} (ht : n.isTop c = true)
    (hf : find s (c :: w ++ after) = some (s', some key, (c :: w).length)) :
    cutWords find n true 0 s (c :: w ++ after) =
      ([], (key, (cutWords find (behind n (c :: w)) (startBehind true (c :: w)) 0 s' after).1) ::
        (cutWords find (behind n (c :: w)) (startBehind true (c :: w)) 0 s' after).2) := by
  rw [List.cons_append] at hf ⊢
  simp only [cutWords, ht, Bool.true_and, ↓reduceIte, hf, List.length_cons, Nat.add_sub_cancel,
    cutWords_skip]
  rfl

theorem cutWords_keep {c : Char} {cs : List Char} {length : Nat} (ht : n.isTop c = true)
    (hf : find s (c :: cs) = some (s', none, length)) :
    cutWords find n true 0 s (c :: cs) =
      (c :: (cutWords find (n.next c) (isBlank c) 0 s' cs).1,
        (cutWords find (n.next c) (isBlank c) 0 s' cs).2) := by
  simp only [cutWords, ht, Bool.true_and, ↓reduceIte, hf]

variable (find) in
/-- A text without cuts that takes one state to another. -/
def Passes (s s' : σ) (after : List Char) (start : Bool) (cs : List Char) : Prop :=
  cutWords find (.outside 0) start 0 s (cs ++ after) =
    (cs ++ (cutWords find (.outside 0) (startBehind start cs) 0 s' after).1,
      (cutWords find (.outside 0) (startBehind start cs) 0 s' after).2)

theorem Passes.append {s'' : σ} {a b : List Char} (ha : Passes find s s' (b ++ after) start a)
    (hb : Passes find s' s'' after (startBehind start a) b) :
    Passes find s s'' after start (a ++ b) := by
  unfold Passes at *
  rw [List.append_assoc, ha, hb, startBehind_append, List.append_assoc]

theorem passes_of_quiet {cs : List Char} (h : Quiet find s after (.outside 0) start cs)
    (hb : Balanced cs) : Passes find s s after start cs := by
  have hbehind : behind (.outside 0) cs = .outside 0 := hb.behind_eq
  rw [Passes, cutWords_quiet h, hbehind]

theorem passes_gap (hb : ∀ c cs, isBlank c = true → find s (c :: cs) = none) {g : List Char}
    (hg : IsGap g) : Passes find s s after start g :=
  passes_of_quiet (quiet_gap hb hg) (balanced_gap hg)

theorem passes_of_keep {w : List Char} {length : Nat} (hw : ∀ c ∈ w, isNameChar c = true)
    (hn : w ≠ []) (hf : find s (w ++ after) = some (s', none, length)) :
    Passes find s s' after true w := by
  have hblank : ∀ c ∈ w, isBlank c = false := fun c hc => not_isBlank_of_isNameChar (hw c hc)
  have hordinary : ∀ c ∈ w, isOrdinary c = true := fun c hc => isOrdinary_of_isNameChar (hw c hc)
  have hbehind : behind (.outside 0) w = .outside 0 := behind_of_run? (run?_of_ordinary hordinary 0)
  obtain ⟨c, cs, rfl⟩ := List.exists_cons_of_ne_nil hn
  have htop : (outside 0).isTop c = true := by
    simp [isTop, hordinary c List.mem_cons_self]
  have hquiet : Quiet find s' after ((outside 0).next c) (isBlank c) cs := by
    apply quiet_of_noBlank fun d hd => hblank d (List.mem_cons_of_mem _ hd)
    intro hc
    rw [hblank c List.mem_cons_self] at hc
    cases hc
  rw [List.cons_append] at hf
  rw [Passes, List.cons_append, cutWords_keep htop hf, cutWords_quiet hquiet, ← behind_cons,
    hbehind]
  rfl

end TableQuery.Nesting
