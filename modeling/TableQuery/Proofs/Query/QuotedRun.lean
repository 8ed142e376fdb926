import TableQuery.Proofs.Query.Balance

/-! # Quoted runs

A quoted run is a quote, any characters other than it with the quote itself only written twice,
and the quote again. It is scanned without leaving the quotes for good before its end, so nothing
of it is seen at the top level, whatever depth it stands at.
-/
namespace TableQuery.Nesting
open Text

/-- What may stand in a quoted run between the quotes at its ends. -/
inductive QuotedBody (q : Char) : List Char → Prop
  | nil : QuotedBody q []
  | other {c : Char} {cs : List Char} : c ≠ q → QuotedBody q cs → QuotedBody q (c :: cs)
  | twice {cs : List Char} : QuotedBody q cs → QuotedBody q (q :: q :: cs)

def IsQuotedRun (q : Char) (cs : List Char) : Prop :=
  ∃ body, QuotedBody q body ∧ cs = q :: (body ++ [q])

variable {q : Char} {cs : List Char}

theorem quotedBody_of_notMem (h : q ∉ cs) : QuotedBody q cs := by
  induction cs with
  | nil => exact .nil
  | cons c cs ih =>
    rw [List.mem_cons, not_or] at h
    exact .other (Ne.symm h.1) (ih h.2)

theorem QuotedBody.append {a b : List Char} (ha : QuotedBody q a) (hb : QuotedBody q b) :
    QuotedBody q (a ++ b) := by
  induction ha with
  | nil => exact hb
  | other hc _ ih => exact .other hc ih
  | twice _ ih => exact .twice ih

/-- A text in which every quote is written twice, and other characters as often as one likes. -/
theorem quotedBody_flatMap {f : Char → List Char}
    (hf : ∀ c, q ∉ f c ∨ f c = [q, q]) (cs : List Char) : QuotedBody q (cs.flatMap f) := by
  induction cs with
  | nil => exact .nil
  | cons c cs ih =>
    rw [List.flatMap_cons]
    refine QuotedBody.append ?_ ih
    rcases hf c with hc | hc
    · exact quotedBody_of_notMem hc
    · rw [hc]
      exact .twice .nil

/-- Inside quotes the scan stays there over a body, and nothing of it is at the top level. -/
theorem QuotedBody.hidden (hq : isQuote q = true) (h : QuotedBody q cs) (d : Nat) :
    run? (quoted q d) cs = some (quoted q d) ∧ Hidden (quoted q d) cs := by
  induction h with
  | nil => exact ⟨rfl, hidden_nil _⟩
  | @other c cs hc _ ih =>
    have hstay : next? (quoted q d) c = some (quoted q d) := by simp [next?, hc]
    rw [run?, hidden_cons, next, hstay]
    exact ⟨ih.1, rfl, ih.2⟩
  | @twice cs _ ih =>
    have hclose : next? (quoted q d) q = some (outside d) := by simp [next?]
    have hopen : next? (outside d) q = some (quoted q d) := next?_quote hq d
    have hbetween : (outside d).isTop q = false := by simp [isTop, isOrdinary, hq]
    rw [run?, hidden_cons, next, hclose, Option.bind_some, Option.getD_some, run?, hidden_cons,
      next, hopen]
    exact ⟨ih.1, rfl, hbetween, ih.2⟩

theorem IsQuotedRun.hidden (hq : isQuote q = true) (h : IsQuotedRun q cs) (d : Nat) :
    run? (outside d) cs = some (outside d) ∧ Hidden (outside d) cs := by
  obtain ⟨body, hbody, rfl⟩ := h
  obtain ⟨hrun, hhidden⟩ := hbody.hidden hq d
  have hopen : next? (outside d) q = some (quoted q d) := next?_quote hq d
  have hclose : run? (quoted q d) [q] = some (outside d) := by simp [run?, next?]
  have htop : (outside d).isTop q = false := by simp [isTop, isOrdinary, hq]
  constructor
  · rw [run?, hopen, Option.bind_some, run?_append, hrun]
    exact hclose
  · rw [hidden_cons, next, hopen, Option.getD_some, hidden_append, behind_of_run? hrun,
      hidden_cons]
    exact ⟨htop, hhidden, rfl, hidden_nil _⟩

theorem visit_of_hidden {n : Nesting} (hrun : run? n cs = some (outside 0)) (hh : Hidden n cs)
    (stride place : Nat) : visit stride n place 0 cs = .ok [] := by
  induction cs generalizing n place with
  | nil =>
    cases Option.some.inj hrun
    rfl
  | cons c cs ih =>
    obtain ⟨m, hm, hrest⟩ := Option.bind_eq_some_iff.mp hrun
    obtain ⟨hc, hcs⟩ := hidden_cons.mp hh
    rw [next, hm] at hcs
    rw [visit, hm]
    simp only [hc, Bool.false_eq_true, ↓reduceIte]
    exact ih hrest hcs (place + 1)

theorem length_charUnits_of_isQuote (hq : isQuote q = true) : (charUnits q).length = 1 := by
  rw [isQuote, Bool.or_eq_true, beq_iff_eq, beq_iff_eq] at hq
  rcases hq with rfl | rfl <;> rfl

theorem IsQuotedRun.unitChars (hq : isQuote q = true) (h : IsQuotedRun q cs) :
    IsQuotedRun q (unitChars (String.ofList cs)) := by
  obtain ⟨body, hbody, rfl⟩ := h
  have hone : List.replicate (charUnits q).length q = [q] := by
    rw [length_charUnits_of_isQuote hq]
    rfl
  refine ⟨body.flatMap fun c => List.replicate (charUnits c).length c, ?_, ?_⟩
  · induction hbody with
    | nil => exact .nil
    | other hc _ ih =>
      rw [List.flatMap_cons]
      refine (quotedBody_of_notMem fun hmem => ?_).append ih
      exact hc (List.eq_of_mem_replicate hmem).symm
    | twice _ ih =>
      rw [List.flatMap_cons, List.flatMap_cons, hone]
      exact .twice ih
  · rw [Text.unitChars, String.toList_ofList, List.flatMap_cons, List.flatMap_append,
      List.flatMap_singleton, hone]
    rfl

theorem IsQuotedRun.topLevelUnits (hq : isQuote q = true) (h : IsQuotedRun q cs) (clause : Clause)
    (stride : Nat) : topLevelUnits clause stride (String.ofList cs) = .ok [] := by
  obtain ⟨hrun, hhidden⟩ := (h.unitChars hq).hidden hq 0
  rw [Text.topLevelUnits, visit_of_hidden hrun hhidden stride 0]
  rfl

end TableQuery.Nesting
