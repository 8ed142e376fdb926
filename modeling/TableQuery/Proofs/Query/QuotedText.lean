import TableQuery.Proofs.Query.WrittenLiteral

/-! # Texts in quotes of one kind

A text is written between two quotes with the quote and the backslash doubled. The scan takes
this for one quoted run. The reader undoubles the quotes of both kinds, whichever stand around
the text, so the text comes back exactly where it holds no pair of the other quote.
-/
namespace TableQuery.Text
open Nesting

variable {a b q : Char}

theorem undouble_double_of_ne (h : a ≠ b) (cs : List Char) :
    undouble a (double b cs) = double b (undouble a cs) := by
  fun_induction undouble a cs with
  | case1 => rfl
  | case2 c =>
    by_cases hc : c = b
    · subst hc
      rw [double_cons_self, undouble_cons_of_ne h.symm, undouble_cons_of_ne h.symm]
      rfl
    · rw [double_cons_of_ne hc]
      rfl
  | case3 c d rest hpair ih =>
    obtain ⟨rfl, rfl⟩ := hpair
    rw [double_cons_of_ne h, double_cons_of_ne h, undouble_pair, ih, double_cons_of_ne h]
  | case4 c d rest hpair ih =>
    by_cases hc : c = b
    · subst hc
      rw [double_cons_self, undouble_cons_of_ne h.symm, undouble_cons_of_ne h.symm, ih,
        double_cons_self]
    · rw [double_cons_of_ne hc, double_cons_of_ne hc, ← ih]
      by_cases hca : c = a
      · -- the pair is broken by the second character, which stands in front once it is doubled
        obtain ⟨ds, hds⟩ : ∃ ds, double b (d :: rest) = d :: ds := by
          rw [double_cons]
          split <;> exact ⟨_, rfl⟩
        rw [hds, undouble, if_neg hpair]
      · rw [undouble_cons_of_ne hca]

theorem length_undouble_le (q : Char) (cs : List Char) : (undouble q cs).length ≤ cs.length := by
  fun_induction undouble q cs with
  | case1 => exact le_rfl
  | case2 c => exact le_rfl
  | case3 c d rest _ ih => exact Nat.succ_le_succ (ih.trans (Nat.le_succ _))
  | case4 c d rest _ ih => exact Nat.succ_le_succ ih

theorem undouble_eq_self_iff {cs : List Char} : undouble q cs = cs ↔ ¬[q, q] <:+: cs := by
  fun_induction undouble q cs with
  | case1 => simp
  | case2 c =>
    refine iff_of_true rfl fun h => ?_
    exact absurd h.length_le (by simp)
  | case3 c d rest hpair ih =>
    obtain ⟨rfl, rfl⟩ := hpair
    refine iff_of_false (fun h => ?_) fun h => h ⟨[], rest, rfl⟩
    have hle := length_undouble_le d rest
    rw [(List.cons.inj h).2] at hle
    exact absurd hle (by simp)
  | case4 c d rest hpair ih =>
    have hfront : ¬[q, q] <+: c :: d :: rest := by
      rw [List.cons_prefix_cons, List.cons_prefix_cons]
      exact fun h => hpair ⟨h.1.symm, h.2.1.symm⟩
    rw [List.cons_inj_right, ih]
    exact not_congr (List.infix_cons_iff.trans (or_iff_right hfront)).symm

def otherQuote (q : Char) : Char := if q = '"' then '\'' else '"'

/-- A text between two quotes, with these quotes and the backslashes of the text doubled. -/
def quotedBy (q : Char) (cs : List Char) : List Char := q :: (double q (double '\\' cs) ++ [q])

theorem isQuotedRun_quotedBy (q : Char) (cs : List Char) : IsQuotedRun q (quotedBy q cs) := by
  refine ⟨_, quotedBody_flatMap (fun c => ?_) _, rfl⟩
  by_cases hc : c = q
  · exact Or.inr (by rw [if_pos hc, hc])
  · exact Or.inl (by simp [hc, Ne.symm hc])

theorem unescape_doubled (hq : isQuote q = true) (cs : List Char) :
    unescape (double q (double '\\' cs)) = undouble (otherQuote q) cs := by
  rw [isQuote, Bool.or_eq_true, beq_iff_eq, beq_iff_eq] at hq
  rcases hq with rfl | rfl
  · rw [unescape, undouble_double_of_ne (by decide), undouble_double,
      undouble_double_of_ne (by decide), unbackslash_double]
    rfl
  · rw [unescape, undouble_double, undouble_double_of_ne (by decide), unbackslash_double]
    rfl

theorem readLiteral_quotedBy (hq : isQuote q = true) (cs : List Char) :
    Value.readLiteral (quotedBy q cs) = .string (String.ofList (undouble (otherQuote q) cs)) := by
  rw [quotedBy, Literal.readLiteral_quoted hq, unescape_doubled hq]

/-- A text in quotes is scanned as one quoted run, and is read back exactly if the other quote
never stands twice in a row in it. -/
theorem readLiteral_quotedBy_iff (hq : isQuote q = true) (s : String) :
    IsQuotedRun q (quotedBy q s.toList) ∧
      (∀ clause stride,
        topLevelUnits clause stride (String.ofList (quotedBy q s.toList)) = .ok []) ∧
      (Value.readLiteral (quotedBy q s.toList) = .string s ↔
        ¬[otherQuote q, otherQuote q] <:+: s.toList) := by
  have hrun := isQuotedRun_quotedBy q s.toList
  refine ⟨hrun, hrun.topLevelUnits hq, ?_⟩
  rw [readLiteral_quotedBy hq, Value.string.injEq, ← String.toList_inj, String.toList_ofList,
    undouble_eq_self_iff]

/-- Quotes of both kinds, backslashes and a parenthesis between single quotes. -/
theorem readLiteral_quotedBy_iff_mixed :
    isQuote '\'' = true ∧ ¬['"', '"'] <:+: "it''s \"\\n\" (\\\\".toList ∧
      Value.readLiteral (quotedBy '\'' "it''s \"\\n\" (\\\\".toList) =
        .string "it''s \"\\n\" (\\\\" :=
  have hpairs : ¬['"', '"'] <:+: "it''s \"\\n\" (\\\\".toList := by decide
  ⟨rfl, hpairs, (readLiteral_quotedBy_iff rfl _).2.2.mpr hpairs⟩

/-- Between single quotes a pair of double quotes is read as one of them. -/
theorem not_readLiteral_quotedBy : ¬ ∀ (q : Char) (s : String), isQuote q = true →
    Value.readLiteral (quotedBy q s.toList) = .string s := by
  intro h
  have hpair := h '\'' "\"\"" rfl
  rw [readLiteral_quotedBy rfl, Value.string.injEq] at hpair
  exact absurd hpair (by decide)

end TableQuery.Text
