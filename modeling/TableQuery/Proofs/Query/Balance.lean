import TableQuery.Query.Nesting
import TableQuery.Proofs.Text.FieldPath

/-! # Balanced texts

A text is balanced when its quotes and parentheses are accepted. Texts are scanned one
behind the other: the scan of the second starts in the nesting that the first leaves.
A balanced text leaves every depth as it finds it, and what it shows at the top level
of its own is hidden inside parentheses.
-/
namespace TableQuery.Nesting
open Text

/-- The nesting behind a text, unless a parenthesis in it closes nothing. -/
def run? : Nesting → List Char → Option Nesting
  | n, [] => some n
  | n, c :: cs => (n.next? c).bind fun m => run? m cs

/-- The nesting behind a text where nothing is refused. -/
def behind (n : Nesting) (cs : List Char) : Nesting := cs.foldl next n

def Balanced (cs : List Char) : Prop := check (outside 0) cs = .ok ()

theorem run?_append (n : Nesting) (a b : List Char) :
    run? n (a ++ b) = (run? n a).bind fun m => run? m b := by
  induction a generalizing n with
  | nil => rfl
  | cons c a ih => simp only [List.cons_append, run?, ih, Option.bind_assoc]

theorem run?_of_run?_append {n m : Nesting} {a b : List Char} (h : run? n (a ++ b) = some m) :
    ∃ k, run? n a = some k ∧ run? k b = some m := by
  rw [run?_append] at h
  exact Option.bind_eq_some_iff.mp h

@[simp] theorem behind_nil (n : Nesting) : behind n [] = n := rfl

@[simp] theorem behind_cons (n : Nesting) (c : Char) (cs : List Char) :
    behind n (c :: cs) = behind (n.next c) cs := rfl

theorem behind_append (n : Nesting) (a b : List Char) :
    behind n (a ++ b) = behind (behind n a) b := List.foldl_append

theorem behind_of_run? {n m : Nesting} {cs : List Char} (h : run? n cs = some m) :
    behind n cs = m := by
  induction cs generalizing n with
  | nil => exact Option.some.inj h
  | cons c cs ih =>
    obtain ⟨k, hk, hm⟩ := Option.bind_eq_some_iff.mp h
    rw [behind_cons, next, hk]
    exact ih hm

theorem check_eq_ok_iff {n : Nesting} {cs : List Char} :
    check n cs = .ok () ↔ run? n cs = some (outside 0) := by
  induction cs generalizing n with
  | nil =>
    cases n with
    | outside depth => cases depth <;> simp [check, finish, run?]
    | quoted quote depth => simp [check, finish, run?]
  | cons c cs ih =>
    cases h : n.next? c with
    | none => simp [check, run?, h]
    | some m => simp [check, run?, h, ih]

theorem balanced_iff {cs : List Char} : Balanced cs ↔ run? (outside 0) cs = some (outside 0) :=
  check_eq_ok_iff

theorem Balanced.behind_eq {cs : List Char} (h : Balanced cs) :
    behind (outside 0) cs = outside 0 := behind_of_run? (balanced_iff.mp h)

instance (cs : List Char) : Decidable (Balanced cs) := decidable_of_iff _ balanced_iff.symm

theorem requireBalance_of_balanced {cs : List Char} (h : Balanced cs) (clause : Clause) :
    requireBalance clause cs = .ok () := by
  rw [requireBalance, show check (outside 0) cs = .ok () from h]
  rfl

theorem Balanced.append {a b : List Char} (ha : Balanced a) (hb : Balanced b) :
    Balanced (a ++ b) := by
  rw [balanced_iff] at ha hb ⊢
  rw [run?_append, ha]
  exact hb

theorem isOrdinary_iff {c : Char} :
    isOrdinary c = true ↔ c ≠ '"' ∧ c ≠ '\'' ∧ c ≠ '(' ∧ c ≠ ')' := by
  simp [isOrdinary, isQuote, and_assoc]

theorem char_cases (c : Char) :
    isQuote c = true ∨ c = '(' ∨ c = ')' ∨ isOrdinary c = true := by
  cases hq : isQuote c with
  | true => exact Or.inl rfl
  | false =>
    by_cases ho : c = '('
    · exact Or.inr (Or.inl ho)
    · by_cases hc : c = ')'
      · exact Or.inr (Or.inr (Or.inl hc))
      · exact Or.inr (Or.inr (Or.inr (by simp [isOrdinary, hq, ho, hc])))

theorem next?_quote {c : Char} (h : isQuote c = true) (d : Nat) :
    next? (outside d) c = some (quoted c d) := by simp [next?, h]

@[simp] theorem next?_open (d : Nat) : next? (outside d) '(' = some (outside (d + 1)) := rfl

@[simp] theorem next?_close (d : Nat) : next? (outside (d + 1)) ')' = some (outside d) := rfl

theorem isOrdinary_of_isNameChar {c : Char} (h : isNameChar c = true) : isOrdinary c = true := by
  have hn := isNameChar_iff.mp h
  rw [isOrdinary_iff]
  refine ⟨?_, ?_, ?_, ?_⟩ <;> rintro rfl <;> simp at hn

theorem isOrdinary_of_isPathChar {c : Char} (h : isPathChar c = true) : isOrdinary c = true := by
  rw [isPathChar, Bool.or_eq_true, beq_iff_eq] at h
  rcases h with h | rfl
  · exact isOrdinary_of_isNameChar h
  · rfl

theorem isOrdinary_of_isBlank {c : Char} (h : isBlank c = true) : isOrdinary c = true := by
  rw [isOrdinary_iff]
  refine ⟨?_, ?_, ?_, ?_⟩ <;> rintro rfl <;> revert h <;> decide

theorem next?_of_isOrdinary {c : Char} (h : isOrdinary c = true) (d : Nat) :
    next? (outside d) c = some (outside d) := by
  obtain ⟨h1, h2, h3, h4⟩ := isOrdinary_iff.mp h
  simp [next?, isQuote, h1, h2, h3, h4]

theorem run?_of_ordinary {cs : List Char} (h : ∀ c ∈ cs, isOrdinary c = true) (d : Nat) :
    run? (outside d) cs = some (outside d) := by
  induction cs with
  | nil => rfl
  | cons c cs ih =>
    rw [run?, next?_of_isOrdinary (h c List.mem_cons_self)]
    exact ih fun x hx => h x (List.mem_cons_of_mem _ hx)

theorem balanced_of_ordinary {cs : List Char} (h : ∀ c ∈ cs, isOrdinary c = true) :
    Balanced cs := balanced_iff.mpr (run?_of_ordinary h 0)

theorem balanced_of_isFieldPath {path : List Char} (h : isFieldPath path = true) :
    Balanced path :=
  balanced_of_ordinary fun _ hc => isOrdinary_of_isPathChar (isPathChar_of_isFieldPath h hc)

theorem balanced_gap {g : List Char} (hg : IsGap g) : Balanced g :=
  balanced_of_ordinary fun c hc => isOrdinary_of_isBlank (hg c hc)

/-- Whether a nesting is one that a text can lead to: what is quoted stands behind a quote. -/
def IsProper : Nesting → Prop
  | outside _ => True
  | quoted quote _ => isQuote quote = true

theorem isProper_outside (depth : Nat) : (outside depth).IsProper := trivial

theorem IsProper.next? {n m : Nesting} (hn : n.IsProper) {c : Char} (h : n.next? c = some m) :
    m.IsProper := by
  cases n with
  | quoted quote depth =>
    cases Option.some.inj h
    split
    · trivial
    · exact hn
  | outside depth =>
    rcases char_cases c with hq | rfl | rfl | ho
    · rw [next?_quote hq] at h
      cases Option.some.inj h
      exact hq
    · cases Option.some.inj h
      trivial
    · cases depth with
      | zero => cases h
      | succ depth =>
        cases Option.some.inj h
        trivial
    · rw [next?_of_isOrdinary ho] at h
      cases Option.some.inj h
      trivial

theorem IsProper.next?_of_isOrdinary {n : Nesting} (hn : n.IsProper) {c : Char}
    (hc : isOrdinary c = true) : n.next? c = some n := by
  cases n with
  | outside depth => exact Nesting.next?_of_isOrdinary hc depth
  | quoted quote depth =>
    have hne : c ≠ quote := by
      rintro rfl
      have hq : isQuote c = true := hn
      simp [isOrdinary, hq] at hc
    exact congrArg some (if_neg hne)

theorem check_ordinary_append {n : Nesting} (hn : n.IsProper) {g : List Char}
    (hg : ∀ c ∈ g, isOrdinary c = true) (cs : List Char) : check n (g ++ cs) = check n cs := by
  induction g with
  | nil => rfl
  | cons c g ih =>
    obtain ⟨hc, hg⟩ := List.forall_mem_cons.mp hg
    rw [List.cons_append, check, hn.next?_of_isOrdinary hc]
    exact ih hg

theorem check_append_ordinary {n : Nesting} (hn : n.IsProper) {g : List Char}
    (hg : ∀ c ∈ g, isOrdinary c = true) (cs : List Char) : check n (cs ++ g) = check n cs := by
  induction cs generalizing n with
  | nil => simpa using check_ordinary_append hn hg []
  | cons c cs ih =>
    rw [List.cons_append, check, check]
    cases h : n.next? c with
    | none => rfl
    | some m => exact ih (hn.next? h)

theorem check_trim (cs : List Char) : check (outside 0) (trim cs) = check (outside 0) cs := by
  obtain ⟨g, g', hg, hg', -, hcs⟩ := exists_trim cs
  have hfront := check_ordinary_append (isProper_outside 0)
    (fun c hc => isOrdinary_of_isBlank (hg c hc)) (trim cs ++ g')
  have hback := check_append_ordinary (isProper_outside 0)
    (fun c hc => isOrdinary_of_isBlank (hg' c hc)) (trim cs)
  rw [← hback, ← hfront, ← List.append_assoc, ← hcs]

theorem balanced_trim {cs : List Char} : Balanced (trim cs) ↔ Balanced cs := by
  unfold Balanced
  rw [check_trim]

def deepen (d : Nat) : Nesting → Nesting
  | outside depth => outside (depth + d)
  | quoted quote depth => quoted quote (depth + d)

theorem next?_deepen {n m : Nesting} {c : Char} (h : n.next? c = some m) (d : Nat) :
    (n.deepen d).next? c = some (m.deepen d) := by
  cases n with
  | quoted quote depth =>
    cases Option.some.inj h
    by_cases hc : c = quote <;> simp [deepen, next?, hc]
  | outside depth =>
    rcases char_cases c with hq | rfl | rfl | ho
    · rw [next?_quote hq] at h
      cases Option.some.inj h
      exact next?_quote hq (depth + d)
    · cases Option.some.inj h
      simp only [deepen, next?_open, Nat.add_right_comm]
    · cases depth with
      | zero => cases h
      | succ depth =>
        cases Option.some.inj h
        simp only [deepen, Nat.add_right_comm depth 1 d, next?_close]
    · rw [next?_of_isOrdinary ho] at h
      cases Option.some.inj h
      exact next?_of_isOrdinary ho (depth + d)

theorem run?_deepen {n m : Nesting} {cs : List Char} (h : run? n cs = some m) (d : Nat) :
    run? (n.deepen d) cs = some (m.deepen d) := by
  induction cs generalizing n with
  | nil =>
    cases Option.some.inj h
    rfl
  | cons c cs ih =>
    obtain ⟨k, hk, hm⟩ := Option.bind_eq_some_iff.mp h
    rw [run?, next?_deepen hk]
    exact ih hm

theorem Balanced.run? {cs : List Char} (h : Balanced cs) (d : Nat) :
    run? (outside d) cs = some (outside d) := by
  have hd := run?_deepen (balanced_iff.mp h) d
  simpa only [deepen, Nat.zero_add] using hd

theorem isTop_deepen_succ (n : Nesting) (d : Nat) (c : Char) :
    (n.deepen (d + 1)).isTop c = false := by
  cases n with
  | outside depth =>
    have h : (outside (depth + (d + 1)) == outside 0) = false := by
      rw [beq_eq_false_iff_ne]
      intro he
      simp at he
    simp only [deepen, isTop, h, Bool.false_and]
  | quoted quote depth => rfl

def Hidden (n : Nesting) (cs : List Char) : Prop :=
  ∀ a c b, cs = a ++ c :: b → (behind n a).isTop c = false

theorem hidden_nil (n : Nesting) : Hidden n [] := by
  intro a c b h
  exact absurd h (by simp)

theorem hidden_cons {n : Nesting} {c : Char} {cs : List Char} :
    Hidden n (c :: cs) ↔ n.isTop c = false ∧ Hidden (n.next c) cs := by
  constructor
  · intro h
    refine ⟨h [] c cs rfl, ?_⟩
    intro a d b hd
    exact h (c :: a) d b (by rw [hd]; rfl)
  · rintro ⟨hc, h⟩ a d b hd
    cases a with
    | nil =>
      cases (List.cons.inj hd).1
      exact hc
    | cons e a =>
      obtain ⟨rfl, htail⟩ := List.cons.inj hd
      exact h a d b htail

theorem hidden_append {n : Nesting} {a b : List Char} :
    Hidden n (a ++ b) ↔ Hidden n a ∧ Hidden (behind n a) b := by
  induction a generalizing n with
  | nil => simp [hidden_nil]
  | cons c a ih => rw [List.cons_append, hidden_cons, hidden_cons, ih, behind_cons, and_assoc]

theorem hidden_parentheses {cs : List Char} (h : Balanced cs) :
    Hidden (outside 0) ('(' :: (cs ++ [')'])) := by
  rw [hidden_cons, next, next?_open, hidden_append]
  refine ⟨rfl, ?_, ?_⟩
  · intro a c b hs
    obtain ⟨n, hn, -⟩ := run?_of_run?_append (hs ▸ balanced_iff.mp h)
    have hb := behind_of_run? (run?_deepen hn 1)
    change behind (outside 1) a = n.deepen 1 at hb
    change (behind (outside 1) a).isTop c = false
    rw [hb]
    exact isTop_deepen_succ n 0 c
  · rw [hidden_cons]
    refine ⟨?_, hidden_nil _⟩
    simp [isTop, isOrdinary]

theorem balanced_parentheses {cs : List Char} (h : Balanced cs) :
    Balanced ('(' :: (cs ++ [')'])) := by
  rw [balanced_iff, run?, next?_open, Option.bind_some, run?_append, h.run? 1]
  rfl

end TableQuery.Nesting
