import TableQuery.Describe.Profile
import TableQuery.Proofs.Data.RecordFields
import TableQuery.Proofs.Value.TypeOrder

/-! # Noted types

What a survey notes on the records that all others inherit from depends on its fields alone, and
so does where it breaks off: at an empty list under a name that every record answers to, where no
type is shown under that name yet, and at the first field of another name that every record answers
to by then.
-/
namespace TableQuery

namespace Record.Noted

/-- What is noted behind some fields at none of which a survey breaks off. -/
def behind (n : Noted) (fields : List (String × Value)) : Noted where
  typed := (fields.filter fun field => isBuiltin field.1 && !field.2.isNull).map (·.1) ++ n.typed
  nullable := n.nullable || fields.any fun field => field.1 == "__proto__" && field.2.isNull

/-- No survey tells the two apart. -/
structure Alike (n n' : Noted) : Prop where
  hasType_eq : ∀ name, n.hasType name = n'.hasType name
  nullable_eq : n.nullable = n'.nullable

variable {n n' : Noted} {name : String} {v : Value} {fields : List (String × Value)}

theorem Alike.refl (n : Noted) : n.Alike n := ⟨fun _ => rfl, rfl⟩

theorem Alike.trans {n'' : Noted} (h : n.Alike n') (h' : n'.Alike n'') : n.Alike n'' :=
  ⟨fun name => (h.hasType_eq name).trans (h'.hasType_eq name), h.nullable_eq.trans h'.nullable_eq⟩

theorem Alike.symm (h : n.Alike n') : n'.Alike n :=
  ⟨fun name => (h.hasType_eq name).symm, h.nullable_eq.symm⟩

theorem Alike.answers_eq (h : n.Alike n') (name : String) : n.answers name = n'.answers name := by
  rw [answers, answers, h.hasType_eq, h.nullable_eq]

theorem answers_of_isBuiltin (h : isBuiltin name = true) : n.answers name = true := by
  simp [answers, h]

theorem isBuiltin_of_answers (h : n.answers name = false) : isBuiltin name = false := by
  rw [← Bool.not_eq_true]
  intro hbuiltin
  rw [answers_of_isBuiltin hbuiltin] at h
  cases h

theorem answers_behind (h : n.answers name = true) : (n.behind fields).answers name = true := by
  simp only [answers, hasType, behind, List.contains_append] at h ⊢
  grind

theorem behind_nil (n : Noted) : n.behind [] = n := by simp [behind]

theorem hasType_behind_append (n : Noted) (a b : List (String × Value)) (name : String) :
    (n.behind (a ++ b)).hasType name = ((n.behind a).behind b).hasType name := by
  simp only [hasType, behind, List.contains_append, List.filter_append, List.map_append]
  grind

theorem alike_behind_append (n : Noted) (a b : List (String × Value)) :
    (n.behind (a ++ b)).Alike ((n.behind a).behind b) :=
  ⟨hasType_behind_append n a b, by simp [behind, Bool.or_assoc]⟩

theorem Alike.behind (h : n.Alike n') (fields : List (String × Value)) :
    (n.behind fields).Alike (n'.behind fields) := by
  constructor
  · intro name
    have hname := h.hasType_eq name
    simp only [hasType, Noted.behind, List.contains_append] at hname ⊢
    grind
  · simp [Noted.behind, h.nullable_eq]

theorem behind_of_forall (h : ∀ field ∈ fields, isBuiltin field.1 = false) :
    n.behind fields = n := by
  have htyped : (fields.filter fun field => isBuiltin field.1 && !field.2.isNull) = [] := by
    refine List.filter_eq_nil_iff.mpr fun field hfield => ?_
    simp [h field hfield]
  have hmark : (fields.any fun field => field.1 == "__proto__" && field.2.isNull) = false := by
    refine List.any_eq_false.mpr fun field hfield => ?_
    have hname : field.1 ≠ "__proto__" := fun heq => absurd (heq ▸ h field hfield) (by decide)
    simp [hname]
  rw [behind, htyped, hmark, Bool.or_false, List.map_nil, List.nil_append]

end Record.Noted

namespace Survey

/-- Whether a survey breaks off at a field that comes behind those with some names. -/
def Trips (n : Record.Noted) (names : List String) (name : String) (v : Value) : Prop :=
  if Record.isBuiltin name then v.typeName = .array ∧ n.hasType name = false
  else n.answers name = true ∧ name ∉ names

/-- A survey that has met some fields breaks off at none of the further ones. -/
def Surveyable (n : Record.Noted) (before fields : List (String × Value)) : Prop :=
  ∀ front name v back, fields = front ++ (name, v) :: back →
    ¬Trips (n.behind (before ++ front)) ((before ++ front).map (·.1)) name v

/-- What a survey has come to behind some fields. -/
structure Follows (n : Record.Noted) (before : List (String × Value)) (s : Survey) : Prop where
  has_iff : ∀ name, Record.has s.profiles name = true ↔
    Record.isBuiltin name = false ∧ name ∈ before.map (·.1)
  alike : s.noted.Alike (n.behind before)

variable {maxSamples : Option Nat} {n : Record.Noted} {s s' : Survey} {name : String} {v : Value}
variable {before fields : List (String × Value)}

theorem surveyable_nil (n : Record.Noted) (before : List (String × Value)) :
    Surveyable n before [] := by
  intro front name v back heq
  exact absurd heq.symm (List.append_ne_nil_of_right_ne_nil _ (List.cons_ne_nil _ _))

theorem surveyable_cons : Surveyable n before ((name, v) :: fields) ↔
    ¬Trips (n.behind before) (before.map (·.1)) name v ∧
      Surveyable n (before ++ [(name, v)]) fields := by
  constructor
  · intro h
    refine ⟨by simpa using h [] name v fields rfl, fun front other w back heq => ?_⟩
    rw [List.append_assoc, List.singleton_append]
    exact h ((name, v) :: front) other w back (by rw [heq, List.cons_append])
  · rintro ⟨hfirst, hrest⟩ front other w back heq
    rcases List.cons_eq_append_iff.mp heq with ⟨rfl, hsame⟩ | ⟨front, rfl, hsame⟩
    · obtain ⟨⟨rfl, rfl⟩, rfl⟩ : (other = name ∧ w = v) ∧ back = fields := by simpa using hsame
      simpa using hfirst
    · have hmet := hrest front other w back hsame
      rwa [List.append_assoc, List.singleton_append] at hmet

theorem surveyable_congr {n' : Record.Noted} (h : n.Alike n') :
    Surveyable n before fields ↔ Surveyable n' before fields := by
  refine forall₅_congr fun front name v back _ => not_congr ?_
  have hbehind := h.behind (before ++ front)
  rw [Trips, Trips, hbehind.hasType_eq, hbehind.answers_eq]

theorem kept_of_note (h : s.note name v = .ok s') :
    s'.profiles = s.profiles ∧ s'.texts = s.texts := by
  unfold note at h
  split at h
  · cases Except.ok.inj h
    split <;> exact ⟨rfl, rfl⟩
  split at h
  · cases Except.ok.inj h
    exact ⟨rfl, rfl⟩
  split at h
  · cases h
  · cases Except.ok.inj h
    exact ⟨rfl, rfl⟩

theorem meet_of_isBuiltin (maxSamples : Option Nat) (hname : Record.isBuiltin name = true)
    (hnone : Record.has s.profiles name = false) (v : Value) :
    s.meet maxSamples name v = s.note name v := by
  simp [meet, hnone, hname, Record.Noted.answers_of_isBuiltin hname]

theorem eq_enter_of_meet (hname : Record.isBuiltin name = false)
    (h : s.meet maxSamples name v = .ok s') : s' = s.enter maxSamples name v := by
  unfold meet at h
  split at h
  · exact (Except.ok.inj h).symm
  · rw [hname, if_neg Bool.false_ne_true] at h
    cases h

theorem Follows.has_eq_false (h : Follows n before s) (hname : Record.isBuiltin name = true) :
    Record.has s.profiles name = false := by
  rw [← Bool.not_eq_true, h.has_iff, hname]
  simp

theorem alike_of_note (hname : Record.isBuiltin name = true) (h : s.note name v = .ok s') :
    s'.noted.Alike (s.noted.behind [(name, v)]) := by
  unfold note at h
  split at h
  · next hnull =>
    cases Except.ok.inj h
    constructor
    · intro other
      split <;> simp [Record.Noted.hasType, Record.Noted.behind, hnull]
    · split
      · next hproto => simp [Record.Noted.behind, hnull, hproto]
      · next hproto => simp [Record.Noted.behind, hproto]
  · next hnull =>
    rw [Bool.not_eq_true] at hnull
    split at h
    · next htype =>
      cases Except.ok.inj h
      refine ⟨fun other => ?_, by simp [Record.Noted.behind, hnull]⟩
      -- a type that is shown already is not noted once more
      simp only [Record.Noted.hasType, Bool.or_eq_true, List.contains_iff_mem] at htype
      simp only [Record.Noted.hasType, Record.Noted.behind]
      grind
    · split at h
      · cases h
      · cases Except.ok.inj h
        refine ⟨fun other => ?_, by simp [Record.Noted.behind, hnull]⟩
        simp [Record.Noted.hasType, Record.Noted.behind, hname, hnull]

theorem Follows.meet (h : Follows n before s) (hmeet : s.meet maxSamples name v = .ok s') :
    Follows n (before ++ [(name, v)]) s' := by
  have hbehind := Record.Noted.alike_behind_append n before [(name, v)]
  cases hname : Record.isBuiltin name with
  | false =>
    cases eq_enter_of_meet hname hmeet
    constructor
    · intro other
      have hproto : name ≠ "__proto__" := fun heq => absurd (heq ▸ hname) (by decide)
      have hother := h.has_iff other
      rw [Record.has_iff] at hother ⊢
      unfold enter
      rw [Record.mem_names_set, hother]
      grind
    · have hsame := Record.Noted.behind_of_forall (n := n.behind before)
        (List.forall_mem_singleton.mpr hname : ∀ field ∈ [(name, v)], _)
      rw [hsame] at hbehind
      exact h.alike.trans hbehind.symm
  | true =>
    rw [meet_of_isBuiltin maxSamples hname (h.has_eq_false hname)] at hmeet
    constructor
    · intro other
      rw [(kept_of_note hmeet).1, h.has_iff]
      grind
    · have hnoted := alike_of_note hname hmeet
      exact (hnoted.trans (h.alike.behind [(name, v)])).trans hbehind.symm

theorem isOk_note : (s.note name v).isOk = true ↔
    ¬(v.typeName = .array ∧ s.noted.hasType name = false) := by
  unfold note
  have hnull : v.isNull = true → v.typeName ≠ .array := by
    intro hnull
    rw [Value.isNull_iff.mp hnull]
    decide
  grind [Except.toBool]

theorem Follows.isOk_meet (h : Follows n before s) (maxSamples : Option Nat) (name : String)
    (v : Value) : (s.meet maxSamples name v).isOk = true ↔
      ¬Trips (n.behind before) (before.map (·.1)) name v := by
  unfold Trips
  rw [← h.alike.hasType_eq, ← h.alike.answers_eq]
  cases hname : Record.isBuiltin name with
  | true => rw [meet_of_isBuiltin maxSamples hname (h.has_eq_false hname), isOk_note, if_pos rfl]
  | false =>
    have hhas := h.has_iff name
    simp only [hname, true_and] at hhas
    unfold Survey.meet
    grind [Except.toBool]

theorem Follows.run (h : Follows n before s) (fields : List (String × Value))
    (hok : (Survey.run maxSamples s fields).1 = .ok ()) :
    Follows n (before ++ fields) (Survey.run maxSamples s fields).2 := by
  induction fields generalizing s before with
  | nil => simpa [Survey.run] using h
  | cons field fields ih =>
    obtain ⟨name, v⟩ := field
    rw [Survey.run] at hok ⊢
    cases hmeet : s.meet maxSamples name v with
    | error reason =>
      rw [hmeet] at hok
      cases hok
    | ok s' =>
      rw [hmeet] at hok
      have hrest := ih (h.meet hmeet) hok
      rwa [List.append_assoc] at hrest

theorem Follows.isOk_run (h : Follows n before s) (maxSamples : Option Nat)
    (fields : List (String × Value)) :
    (Survey.run maxSamples s fields).1.isOk = true ↔ Surveyable n before fields := by
  induction fields generalizing s before with
  | nil => exact iff_of_true rfl (surveyable_nil n before)
  | cons field fields ih =>
    obtain ⟨name, v⟩ := field
    have hfirst := h.isOk_meet maxSamples name v
    rw [Survey.run, surveyable_cons, ← hfirst]
    cases hmeet : s.meet maxSamples name v with
    | error reason => exact iff_of_false Bool.false_ne_true fun hall => Bool.false_ne_true hall.1
    | ok s' => exact (ih (h.meet hmeet)).trans (and_iff_right rfl).symm

theorem follows_empty (n : Record.Noted) : Follows n [] ⟨[], [], n⟩ := by
  refine ⟨fun name => by simp [Record.has], ?_⟩
  rw [Record.Noted.behind_nil]
  exact .refl n

end Survey

namespace Profile
open Survey

theorem isOk_ofRows (maxSamples : Option Nat) (n : Record.Noted) (rows : List Row) :
    (ofRows maxSamples n rows).1.isOk = true ↔ Surveyable n [] rows.flatten := by
  have hrun := (follows_empty n).isOk_run maxSamples rows.flatten
  refine Iff.trans ?_ hrun
  unfold ofRows
  dsimp only
  cases (Survey.run maxSamples ⟨[], [], n⟩ rows.flatten).1 <;> exact Iff.rfl

theorem noted_ofRows (maxSamples : Option Nat) {n : Record.Noted} {rows : List Row}
    (h : Surveyable n [] rows.flatten) :
    (ofRows maxSamples n rows).2.Alike (n.behind rows.flatten) := by
  have hok := ((follows_empty n).isOk_run maxSamples rows.flatten).mpr h
  cases hrun : (Survey.run maxSamples ⟨[], [], n⟩ rows.flatten).1 with
  | ok u => exact ((follows_empty n).run rows.flatten hrun).alike
  | error reason =>
    rw [hrun] at hok
    cases hok

end Profile
end TableQuery
