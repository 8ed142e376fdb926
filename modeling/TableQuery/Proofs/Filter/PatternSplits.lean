import Mathlib.Data.List.Forall2
import Mathlib.Data.List.Infix
import TableQuery.Proofs.Filter.CompiledPattern

/-! # Texts split along a pattern

A pattern is found in a text exactly where some of the text, without a gap, can be split along
the pattern: a run of units for each `%`, one unit for each `_`, and for any other unit one that
folds to the same unit. The places of a text are its tails, so each step over a part of the
pattern is a statement about all tails at once.
-/
namespace TableQuery

/-- How a part of a pattern takes units from the front of a folded text, given what must be true
of the rest. -/
def PatternPart.Takes (part : PatternPart) (follows : List Nat → Prop) (us : List Nat) : Prop :=
  match part with
  | .unit v => ∃ rest, us = Text.foldUnit v :: rest ∧ follows rest
  | .one => ∃ u rest, us = u :: rest ∧ follows rest
  | .run => ∃ rest, rest <:+ us ∧ follows rest

namespace Pattern
open Text

/-- The parts of a pattern take units from the front of a folded text one after the other. -/
def StartsAt : List PatternPart → List Nat → Prop
  | [], _ => True
  | part :: parts, us => part.Takes (StartsAt parts) us

/-- Whether each of some flags says of its text whether the text has a property. -/
abbrev Flags (p : List Nat → Prop) (bs : List Bool) (tails : List (List Nat)) : Prop :=
  List.Forall₂ (fun b us => b = true ↔ p us) bs tails

variable {p : List Nat → Prop} {bs : List Bool}

theorem any_flags {tails : List (List Nat)} (h : Flags p bs tails) :
    bs.any id = true ↔ ∃ us ∈ tails, p us := by
  induction h with
  | nil => simp
  | cons hb _ ih => simp [hb, ih]

theorem head_flags {us : List Nat} (h : Flags p bs us.tails) : bs.headD false = true ↔ p us := by
  cases us <;> cases h <;> assumption

theorem flags_stepBack (part : PatternPart) {us : List Nat} (h : Flags p bs us.tails) :
    Flags (part.Takes p) (stepBack part us bs) us.tails := by
  induction us generalizing bs with
  | nil =>
    have hhead := head_flags h
    cases part with
    | run => exact .cons (by simpa [PatternPart.Takes] using hhead) .nil
    | one => exact .cons (by simp [PatternPart.Takes]) .nil
    | unit v => exact .cons (by simp [PatternPart.Takes]) .nil
  | cons u us ih =>
    obtain ⟨b, after, hb, hafter, rfl⟩ := List.forall₂_cons_right_iff.mp h
    have hnext := head_flags hafter
    have hrest := ih hafter
    cases part with
    | run =>
      refine .cons ?_ hrest
      have hlater := head_flags hrest
      simp only [List.headD_cons, List.tail_cons, Bool.or_eq_true, hb, hlater, PatternPart.Takes,
        List.suffix_cons_iff, or_and_right, exists_or, exists_eq_left]
    | one => exact .cons (by simpa [PatternPart.Takes] using hnext) hrest
    | unit v =>
      refine .cons ?_ hrest
      simp only [List.tail_cons, Bool.and_eq_true, beq_iff_eq, hnext, PatternPart.Takes,
        List.cons.injEq]
      constructor
      · rintro ⟨rfl, hp⟩
        exact ⟨us, ⟨rfl, rfl⟩, hp⟩
      · rintro ⟨_, ⟨rfl, rfl⟩, hp⟩
        exact ⟨rfl, hp⟩

/-- The places of a text at which a pattern is found are those where its parts take what they
need. -/
theorem flags_places (parts : List PatternPart) (us : List Nat) :
    Flags (StartsAt parts) (places parts us) us.tails := by
  induction parts with
  | nil =>
    induction us with
    | nil => exact .cons (by simp [StartsAt]) .nil
    | cons u us ih => exact .cons (by simp [StartsAt]) ih
  | cons part parts ih => exact flags_stepBack part ih

/-- A run of units split along the units of a pattern. -/
inductive Splits : List Nat → List Nat → Prop
  | nil : Splits [] []
  | run {vs us : List Nat} (taken : List Nat) : Splits vs us → Splits (0x25 :: vs) (taken ++ us)
  | one {vs us : List Nat} (u : Nat) : Splits vs us → Splits (0x5F :: vs) (u :: us)
  | unit {v u : Nat} {vs us : List Nat} : v ≠ 0x25 → v ≠ 0x5F → foldUnit v = foldUnit u →
    Splits vs us → Splits (v :: vs) (u :: us)

theorem startsAt_iff_splits (vs us : List Nat) :
    StartsAt (vs.map partOf) (us.map foldUnit) ↔ ∃ run after, us = run ++ after ∧ Splits vs run := by
  induction vs generalizing us with
  | nil => exact iff_of_true trivial ⟨[], us, rfl, .nil⟩
  | cons v vs ih =>
    rw [List.map_cons, StartsAt, partOf]
    by_cases hrun : v = 0x25
    · subst hrun
      rw [if_pos rfl]
      constructor
      · rintro ⟨rest, hrest, hstarts⟩
        obtain ⟨tail, ⟨taken, rfl⟩, rfl⟩ := List.suffix_map_iff.mp hrest
        obtain ⟨run, after, rfl, hsplits⟩ := (ih tail).mp hstarts
        exact ⟨taken ++ run, after, (List.append_assoc _ _ _).symm, .run taken hsplits⟩
      · rintro ⟨_, after, rfl, hsplits⟩
        cases hsplits with
        | @run _ us taken hsplits =>
          refine ⟨(us ++ after).map foldUnit, ?_, (ih _).mpr ⟨us, after, rfl, hsplits⟩⟩
          exact List.IsSuffix.map foldUnit ⟨taken, (List.append_assoc _ _ _).symm⟩
        | unit hrun => exact absurd rfl hrun
    · rw [if_neg hrun]
      by_cases hone : v = 0x5F
      · subst hone
        rw [if_pos rfl]
        constructor
        · rintro ⟨_, _, hus, hstarts⟩
          obtain ⟨u, us, rfl, rfl, rfl⟩ := List.map_eq_cons_iff.mp hus
          obtain ⟨run, after, rfl, hsplits⟩ := (ih us).mp hstarts
          exact ⟨u :: run, after, rfl, .one u hsplits⟩
        · rintro ⟨_, after, rfl, hsplits⟩
          cases hsplits with
          | @one _ us u hsplits =>
            exact ⟨foldUnit u, _, rfl, (ih _).mpr ⟨us, after, rfl, hsplits⟩⟩
          | unit _ hone => exact absurd rfl hone
      · rw [if_neg hone]
        constructor
        · rintro ⟨_, hus, hstarts⟩
          obtain ⟨u, us, rfl, hfold, rfl⟩ := List.map_eq_cons_iff.mp hus
          obtain ⟨run, after, rfl, hsplits⟩ := (ih us).mp hstarts
          exact ⟨u :: run, after, rfl, .unit hrun hone hfold.symm hsplits⟩
        · rintro ⟨_, after, rfl, hsplits⟩
          cases hsplits with
          | run => exact absurd rfl hrun
          | one => exact absurd rfl hone
          | @unit _ u _ us _ _ hfold hsplits =>
            refine ⟨(us ++ after).map foldUnit, ?_, (ih _).mpr ⟨us, after, rfl, hsplits⟩⟩
            rw [hfold]
            rfl

/-- The expression of a pattern is compiled, and is found in a text exactly if some run of the
units of the text can be split along the pattern. -/
theorem foundIn_iff_splits (pattern text : String) :
    ∃ parts, compile pattern = .ok parts ∧
      (foundIn text parts = true ↔
        ∃ before run after, units text = before ++ run ++ after ∧ Splits (units pattern) run) := by
  refine ⟨ofText pattern, compile_eq_ok pattern, ?_⟩
  have hparts : ofText pattern = (units pattern).map partOf := rfl
  rw [foundIn, any_flags (flags_places _ _), hparts]
  simp only [List.mem_tails, List.suffix_map_iff]
  constructor
  · rintro ⟨_, ⟨us, ⟨before, htext⟩, rfl⟩, hstarts⟩
    obtain ⟨run, after, rfl, hsplits⟩ := (startsAt_iff_splits _ us).mp hstarts
    exact ⟨before, run, after, by rw [← htext, List.append_assoc], hsplits⟩
  · rintro ⟨before, run, after, htext, hsplits⟩
    refine ⟨_, ⟨run ++ after, ⟨before, ?_⟩, rfl⟩,
      (startsAt_iff_splits _ _).mpr ⟨run, after, rfl, hsplits⟩⟩
    rw [htext, List.append_assoc]

end Pattern
end TableQuery
