import TableQuery.Proofs.Data.RecordOrder
import TableQuery.Proofs.Describe.NotedTypes
import TableQuery.Proofs.Value.TypeOrder

/-! # Surveyed fields

Each field of a survey has the profile of all its values so far, and stands where its name was
entered first. So a survey covers all fields, except that no name that every record answers to
gets a profile.
-/
namespace TableQuery

namespace Profile

def valuesUnder (name : String) (fields : List (String × Value)) : List Value :=
  (fields.filter fun field => field.1 == name).map (·.2)

def present (values : List Value) : List Value := values.filter (!·.isNull)

def typeOf (values : List Value) : TypeName :=
  TypeName.joinAll ((present values).map Value.typeName)

/-- Plain data without those whose JSON text has come before. -/
def firstTexts : List (List Char) → List Plain → List Plain
  | _, [] => []
  | seen, p :: rest =>
    if seen.contains p.json then firstTexts seen rest else p :: firstTexts (p.json :: seen) rest

/-- The first samples of some values, at most so many. -/
def samplesOf (bound : Nat) (values : List Value) : List Plain :=
  (firstTexts [] ((present values).map Value.toPlain)).take bound

def ofValues (maxSamples : Option Nat) (values : List Value) : Profile where
  type := typeOf values
  nullable := values.any (·.isNull)
  samples := maxSamples.map fun bound => samplesOf bound values

variable {maxSamples : Option Nat} {values : List Value} {v : Value}

theorem ofValues_nil : ofValues maxSamples [] = blank maxSamples.isSome := by
  cases maxSamples <;>
    simp [ofValues, typeOf, TypeName.joinAll, present, samplesOf, firstTexts, blank]

theorem present_concat_of_null (values : List Value) (h : v.isNull = true) :
    present (values ++ [v]) = present values := by
  simp [present, h]

theorem present_concat (h : v.isNull = false) : present (values ++ [v]) = present values ++ [v] := by
  simp [present, h]

theorem firstTexts_concat (seen : List (List Char)) (items : List Plain) (p : Plain) :
    firstTexts seen (items ++ [p]) = firstTexts seen items ++
      if p.json ∈ seen ∨ p.json ∈ items.map Plain.json then [] else [p] := by
  induction items generalizing seen with
  | nil => simp [firstTexts]
  | cons item items ih =>
    rw [List.cons_append, firstTexts, firstTexts, ih, ih]
    simp only [List.map_cons, List.mem_cons, List.contains_eq_mem, decide_eq_true_eq]
    by_cases hseen : item.json ∈ seen
    · -- A text that is the item's has been seen before it.
      have hsame : (p.json ∈ seen ∨ p.json = item.json ∨ p.json ∈ items.map Plain.json) ↔
          (p.json ∈ seen ∨ p.json ∈ items.map Plain.json) := by
        refine ⟨?_, Or.imp_right .inr⟩
        rintro (h | h | h)
        · exact .inl h
        · exact .inl (h ▸ hseen)
        · exact .inr h
      simp only [hseen, hsame, if_true]
    · simp only [hseen, if_false, List.cons_append, or_assoc, or_left_comm]

theorem mem_texts_firstTexts (items : List Plain) (text : List Char) :
    text ∈ (firstTexts [] items).map Plain.json ↔ text ∈ items.map Plain.json := by
  induction items using List.reverseRecOn with
  | nil => rfl
  | append_singleton items p ih =>
    rw [firstTexts_concat, List.map_append, List.map_append, List.mem_append, List.mem_append, ih]
    by_cases hp : p.json ∈ items.map Plain.json
    · have hold : text ∈ [p].map Plain.json → text ∈ items.map Plain.json := by
        intro h
        rwa [List.map_singleton, List.mem_singleton.mp h] at *
      simp only [List.not_mem_nil, false_or, hp, if_true, List.map_nil, or_false]
      exact ⟨.inl, fun h => h.elim id hold⟩
    · simp only [List.not_mem_nil, false_or, hp, if_false]

/-- A value that is not null is a sample if there is room for it and no sample has its text. -/
theorem samplesOf_concat (bound : Nat) (values : List Value) (h : v.isNull = false) :
    samplesOf bound (values ++ [v]) =
      if (samplesOf bound values).length < bound ∧
          v.toPlain.json ∉ (samplesOf bound values).map Plain.json then
        samplesOf bound values ++ [v.toPlain]
      else samplesOf bound values := by
  unfold samplesOf
  rw [present_concat h, List.map_append, List.map_singleton, firstTexts_concat]
  generalize hfirst : firstTexts [] ((present values).map Value.toPlain) = first
  have htexts := mem_texts_firstTexts ((present values).map Value.toPlain) v.toPlain.json
  rw [hfirst] at htexts
  by_cases hroom : first.length < bound
  · have hall : first.take bound = first := List.take_of_length_le (by omega)
    rw [hall]
    by_cases hold : v.toPlain.json ∈ first.map Plain.json
    · rw [if_pos (.inr (htexts.mp hold)), if_neg (fun h => h.2 hold), List.append_nil, hall]
    · have hnew : ¬(v.toPlain.json ∈ [] ∨
          v.toPlain.json ∈ ((present values).map Value.toPlain).map Plain.json) := by
        rintro (h | h)
        · exact List.not_mem_nil h
        · exact hold (htexts.mpr h)
      rw [if_neg hnew, if_pos ⟨hroom, hold⟩, List.take_of_length_le (by simp; omega)]
  · have hfull : ¬(first.take bound).length < bound := by
      rw [List.length_take]
      omega
    rw [List.take_append_of_le_length (by omega), if_neg (fun h => hfull h.1)]

theorem valuesUnder_concat (name : String) (fields : List (String × Value)) (other : String)
    (v : Value) : valuesUnder name (fields ++ [(other, v)]) =
      if other = name then valuesUnder name fields ++ [v] else valuesUnder name fields := by
  unfold valuesUnder
  by_cases hname : other = name
  · simp [hname]
  · simp [hname, beq_eq_false_iff_ne.mpr hname]

theorem valuesUnder_of_notMem {name : String} {fields : List (String × Value)}
    (h : name ∉ fields.map (·.1)) : valuesUnder name fields = [] := by
  rw [valuesUnder, List.map_eq_nil_iff, List.filter_eq_nil_iff]
  intro field hfield hname
  exact h (List.mem_map.mpr ⟨field, hfield, beq_iff_eq.mp hname⟩)

theorem mem_valuesUnder {name : String} {fields : List (String × Value)} {v : Value} :
    v ∈ valuesUnder name fields ↔ (name, v) ∈ fields := by
  simp [valuesUnder]

end Profile

namespace Survey
open Profile

/-- What is known behind some fields, none of which has a name that every record answers to. -/
structure Describes (maxSamples : Option Nat) (fields : List (String × Value)) (s : Survey) :
    Prop where
  names_eq : Record.names s.profiles = Record.keyOrder (fields.map (·.1))
  profile_eq : ∀ name ∈ fields.map (·.1),
    Record.get? s.profiles name = some (ofValues maxSamples (valuesUnder name fields))
  mem_texts : ∀ name text, (name, text) ∈ s.texts ↔
    text ∈ ((ofValues maxSamples (valuesUnder name fields)).samples.getD []).map Plain.json

variable {maxSamples : Option Nat} {fields : List (String × Value)} {s : Survey} {name : String}

theorem describes_nil (maxSamples : Option Nat) (noted : Record.Noted) :
    Describes maxSamples [] ⟨[], [], noted⟩ := by
  refine ⟨Record.keyOrder_nil.symm, by simp, fun name text => ?_⟩
  cases maxSamples <;> simp [valuesUnder, ofValues, samplesOf, present, firstTexts]

theorem Describes.profileOf_eq (h : Describes maxSamples fields s) (name : String) :
    s.profileOf maxSamples name = ofValues maxSamples (valuesUnder name fields) := by
  unfold profileOf
  by_cases hname : name ∈ fields.map (·.1)
  · rw [h.profile_eq name hname, Option.getD_some]
  · have hnone : Record.get? s.profiles name = none := by
      rw [Record.get?_eq_none_iff, h.names_eq, Record.mem_keyOrder]
      exact hname
    rw [hnone, valuesUnder_of_notMem hname, ofValues_nil, Option.getD_none]

/-- A value is taken as a sample where there is room for it and its text is new. -/
theorem Describes.isSample_iff (h : Describes (some bound) fields s) (name : String) (v : Value) :
    s.isSample (some bound) name v = true ↔ v.isNull = false ∧
      (samplesOf bound (valuesUnder name fields)).length < bound ∧
        v.toPlain.json ∉ (samplesOf bound (valuesUnder name fields)).map Plain.json := by
  have htexts := h.mem_texts name v.toPlain.json
  unfold isSample
  rw [h.profileOf_eq]
  simp only [ofValues, Option.map_some, Option.getD_some] at htexts ⊢
  simp [htexts, and_assoc]

theorem isSample_none (v : Value) : s.isSample none name v = false := rfl

theorem Describes.extended_eq (h : Describes maxSamples fields s) (name : String) (v : Value) :
    s.extended maxSamples name v = ofValues maxSamples (valuesUnder name fields ++ [v]) := by
  unfold extended
  rw [h.profileOf_eq]
  generalize hvalues : valuesUnder name fields = values
  have hnullable : (values ++ [v]).any (·.isNull) = (values.any (·.isNull) || v.isNull) := by simp
  cases hnull : v.isNull with
  | true =>
    have hsample : s.isSample maxSamples name v = false := by
      cases maxSamples with
      | none => rfl
      | some bound => rw [← Bool.not_eq_true, h.isSample_iff, hnull]; simp
    have hpresent := present_concat_of_null values hnull
    simp [Profile.enter, hnull, hsample, ofValues, typeOf, samplesOf, hpresent]
  | false =>
    have htype : typeOf (values ++ [v]) = (typeOf values).join v.typeName := by
      simp [typeOf, present_concat hnull, TypeName.joinAll_concat]
    cases maxSamples with
    | none => simp [Profile.enter, hnull, isSample_none, ofValues, htype]
    | some bound =>
      have hsample := h.isSample_iff name v
      rw [hvalues] at hsample
      by_cases htaken : s.isSample (some bound) name v = true
      · have hsamples := samplesOf_concat bound values hnull
        rw [if_pos (hsample.mp htaken).2] at hsamples
        simp [Profile.enter, addSample, hnull, htaken, ofValues, htype, hsamples]
      · have hsamples := samplesOf_concat bound values hnull
        rw [if_neg fun hnew => htaken (hsample.mpr ⟨hnull, hnew⟩)] at hsamples
        simp [Profile.enter, hnull, htaken, ofValues, htype, hsamples]

theorem samples_enter (p : Profile) (v : Value) : (p.enter v).samples = p.samples := by
  unfold Profile.enter
  split <;> rfl

theorem Describes.texts_enter (h : Describes maxSamples fields s) (v : Value) (text : List Char) :
    (name, text) ∈ (s.enter maxSamples name v).texts ↔
      text ∈ ((s.extended maxSamples name v).samples.getD []).map Plain.json := by
  have htexts := h.mem_texts name text
  rw [← h.profileOf_eq] at htexts
  unfold Survey.enter extended
  dsimp only
  by_cases htaken : s.isSample maxSamples name v = true
  · obtain ⟨taken, hsamples⟩ : ∃ taken, (s.profileOf maxSamples name).samples = some taken := by
      rw [h.profileOf_eq]
      cases maxSamples with
      | none => cases htaken
      | some bound => exact ⟨_, rfl⟩
    rw [hsamples] at htexts
    simp [htaken, addSample, samples_enter, hsamples, htexts, or_comm, eq_comm]
  · simp [htaken, samples_enter, htexts]

theorem Describes.enter (h : Describes maxSamples fields s) (hproto : name ≠ "__proto__")
    (v : Value) : Describes maxSamples (fields ++ [(name, v)]) (s.enter maxSamples name v) := by
  have hall := h.extended_eq name v
  constructor
  · rw [List.map_append]
    exact Record.names_set h.names_eq hproto _
  · intro other hother
    unfold Survey.enter
    rw [valuesUnder_concat, Record.get?_set]
    by_cases hname : other = name
    · simp [hname, hproto, hall]
    · have hbefore : other ∈ fields.map (·.1) := by simpa [hname] using hother
      simp [hname, Ne.symm hname, h.profile_eq other hbefore]
  · intro other text
    rw [valuesUnder_concat]
    by_cases hname : other = name
    · rw [hname, if_pos rfl, ← hall]
      exact h.texts_enter v text
    · have hkept : (other, text) ∈ (s.enter maxSamples name v).texts ↔ (other, text) ∈ s.texts := by
        unfold Survey.enter
        dsimp only
        split <;> simp [hname]
      rw [if_neg (Ne.symm hname), hkept, h.mem_texts]

/-- The fields whose names not every record answers to. -/
def ownFields (fields : List (String × Value)) : List (String × Value) :=
  fields.filter fun field => !Record.isBuiltin field.1

theorem Describes.has_eq_false {before : List (String × Value)}
    (h : Describes maxSamples (ownFields before) s) (hname : Record.isBuiltin name = true) :
    Record.has s.profiles name = false := by
  rw [← Bool.not_eq_true, Record.has_iff, h.names_eq, Record.mem_keyOrder, List.mem_map]
  rintro ⟨field, hfield, rfl⟩
  have hown := (List.mem_filter.mp hfield).2
  rw [hname] at hown
  cases hown

theorem ne_proto_of_not_isBuiltin (h : Record.isBuiltin name = false) : name ≠ "__proto__" := by
  rintro rfl
  exact absurd h (by decide)

theorem Describes.meet {before : List (String × Value)} {v : Value} {s' : Survey}
    (h : Describes maxSamples (ownFields before) s) (hmeet : s.meet maxSamples name v = .ok s') :
    Describes maxSamples (ownFields (before ++ [(name, v)])) s' := by
  cases hname : Record.isBuiltin name with
  | false =>
    have hown : ownFields (before ++ [(name, v)]) = ownFields before ++ [(name, v)] := by
      simp [ownFields, hname]
    cases eq_enter_of_meet hname hmeet
    rw [hown]
    exact h.enter (ne_proto_of_not_isBuiltin hname) v
  | true =>
    have hown : ownFields (before ++ [(name, v)]) = ownFields before := by simp [ownFields, hname]
    rw [meet_of_isBuiltin maxSamples hname (h.has_eq_false hname)] at hmeet
    obtain ⟨hprofiles, htexts⟩ := kept_of_note hmeet
    rw [hown]
    exact ⟨hprofiles ▸ h.names_eq, hprofiles ▸ h.profile_eq, htexts ▸ h.mem_texts⟩

theorem Describes.run {before : List (String × Value)}
    (h : Describes maxSamples (ownFields before) s) (fields : List (String × Value))
    (hok : (run maxSamples s fields).1 = .ok ()) :
    Describes maxSamples (ownFields (before ++ fields)) (run maxSamples s fields).2 := by
  induction fields generalizing s before with
  | nil => simpa [Survey.run] using h
  | cons field fields ih =>
    obtain ⟨name, v⟩ := field
    rw [Survey.run] at hok ⊢
    cases hmeet : s.meet maxSamples name v with
    | error reason =>
      rw [hmeet] at hok
      cases hok
    | ok s' =>
      rw [hmeet] at hok
      have hrest := ih (h.meet hmeet) hok
      rw [List.append_assoc] at hrest
      exact hrest

theorem valuesUnder_ownFields (hname : Record.isBuiltin name = false)
    (fields : List (String × Value)) :
    valuesUnder name (ownFields fields) = valuesUnder name fields := by
  unfold valuesUnder ownFields
  rw [List.filter_filter]
  congr 1
  refine List.filter_congr fun field _ => ?_
  by_cases hfield : field.1 = name
  · simp [hfield, hname]
  · simp [hfield]

end Survey

namespace Profile
open Survey
variable {maxSamples : Option Nat} {noted : Record.Noted} {rows : List Row}
variable {profiles : Record Profile}

/-- The profiles of rows are those of all fields whose names not every record answers to. -/
theorem describes_ofRows (h : (ofRows maxSamples noted rows).1 = .ok profiles) :
    ∃ s : Survey, Describes maxSamples (ownFields rows.flatten) s ∧ s.profiles = profiles := by
  unfold ofRows at h
  dsimp only at h
  cases hrun : (run maxSamples ⟨[], [], noted⟩ rows.flatten).1 with
  | error reason =>
    rw [hrun] at h
    cases h
  | ok u =>
    rw [hrun] at h
    have hstart : Describes maxSamples (ownFields []) ⟨[], [], noted⟩ :=
      describes_nil maxSamples noted
    have hall := hstart.run rows.flatten hrun
    exact ⟨_, hall, Except.ok.inj h⟩

theorem mem_names_flatten {name : String} :
    name ∈ rows.flatten.map (·.1) ↔ ∃ row ∈ rows, name ∈ Record.names row := by
  rw [List.map_flatten]
  simp [Record.names]

theorem flatMap_names : rows.flatMap Record.names = rows.flatten.map (·.1) := by
  rw [List.map_flatten]
  rfl

theorem mem_valuesUnder_flatten {name : String} {v : Value} :
    v ∈ valuesUnder name rows.flatten ↔ ∃ row ∈ rows, (name, v) ∈ row := by
  rw [mem_valuesUnder, List.mem_flatten]

theorem get?_of_ofRows (h : (ofRows maxSamples noted rows).1 = .ok profiles) (name : String) :
    Record.get? profiles name =
      if name ∈ (ownFields rows.flatten).map (·.1) then
        some (ofValues maxSamples (valuesUnder name rows.flatten))
      else none := by
  obtain ⟨s, hs, rfl⟩ := describes_ofRows h
  split
  · next hmem =>
    have hown : Record.isBuiltin name = false := by
      obtain ⟨field, hfield, rfl⟩ := List.mem_map.mp hmem
      simpa using (List.mem_filter.mp hfield).2
    rw [hs.profile_eq name hmem, valuesUnder_ownFields hown]
  · next hmem =>
    rw [Record.get?_eq_none_iff, hs.names_eq, Record.mem_keyOrder]
    exact hmem

theorem eq_ofValues_of_get? (h : (ofRows maxSamples noted rows).1 = .ok profiles) {name : String}
    {p : Profile} (hp : Record.get? profiles name = some p) :
    p = ofValues maxSamples (valuesUnder name rows.flatten) := by
  rw [get?_of_ofRows h] at hp
  split at hp
  · exact (Option.some.inj hp).symm
  · cases hp

theorem null_notMem_typeNames (values : List Value) :
    TypeName.null ∉ (present values).map Value.typeName := by
  intro hmem
  obtain ⟨v, hv, hname⟩ := List.mem_map.mp hmem
  have hpresent := (List.mem_filter.mp hv).2
  rw [Value.typeName_eq_null_iff.mp hname] at hpresent
  cases hpresent

theorem typeOf_eq_null_iff {values : List Value} :
    typeOf values = .null ↔ ∀ v ∈ values, v = .null := by
  rw [typeOf, TypeName.joinAll_eq_null_iff (null_notMem_typeNames values), List.map_eq_nil_iff,
    present, List.filter_eq_nil_iff]
  simp [Value.isNull_iff]

theorem ownFields_flatten
    (hown : ∀ row ∈ rows, ∀ name ∈ Record.names row, Record.isBuiltin name = false) :
    ownFields rows.flatten = rows.flatten := by
  refine List.filter_eq_self.mpr fun field hfield => ?_
  obtain ⟨row, hrow, hname⟩ := mem_names_flatten.mp (List.mem_map_of_mem (f := (·.1)) hfield)
  simp [hown row hrow field.1 hname]

theorem exists_ofRows (maxSamples : Option Nat)
    (hown : ∀ row ∈ rows, ∀ name ∈ Record.names row, noted.answers name = false) :
    ∃ profiles, (ofRows maxSamples noted rows).1 = .ok profiles := by
  have hfields : ∀ field ∈ rows.flatten, noted.answers field.1 = false := by
    intro field hfield
    obtain ⟨row, hrow, hname⟩ := mem_names_flatten.mp (List.mem_map_of_mem (f := (·.1)) hfield)
    exact hown row hrow field.1 hname
  have hsurveyable : Surveyable noted [] rows.flatten := by
    intro front name v back heq
    rw [heq] at hfields
    have hname := hfields (name, v) (by simp)
    have hsame : noted.behind front = noted := Record.Noted.behind_of_forall fun field hfield =>
      Record.Noted.isBuiltin_of_answers (hfields field (List.mem_append_left _ hfield))
    rw [List.nil_append, hsame, Trips, Record.Noted.isBuiltin_of_answers hname, hname]
    simp
  have hok := (isOk_ofRows maxSamples noted rows).mpr hsurveyable
  cases hprofiles : (ofRows maxSamples noted rows).1 with
  | ok profiles => exact ⟨profiles, rfl⟩
  | error reason =>
    rw [hprofiles] at hok
    cases hok

/-- In rows that are surveyed, a name that every record answered to before is a builtin one. -/
theorem isBuiltin_of_ofRows (h : (ofRows maxSamples noted rows).1 = .ok profiles) {row : Row}
    (hrow : row ∈ rows) {name : String} (hname : name ∈ Record.names row)
    (hanswers : noted.answers name = true) : Record.isBuiltin name = true := by
  have hsurveyable := (isOk_ofRows maxSamples noted rows).mp (by rw [h]; rfl)
  have hmem : name ∈ rows.flatten.map (·.1) := mem_names_flatten.mpr ⟨row, hrow, hname⟩
  obtain ⟨names, others, hsplit, hfirst⟩ := List.eq_append_cons_of_mem hmem
  obtain ⟨front, rest, hfields, rfl, hrest⟩ := List.map_eq_append_iff.mp hsplit
  obtain ⟨⟨_, v⟩, back, rfl, rfl, -⟩ := List.map_eq_cons_iff.mp hrest
  by_contra hbuiltin
  refine hsurveyable front _ v back hfields ?_
  rw [Trips, if_neg hbuiltin, List.nil_append]
  exact ⟨Record.Noted.answers_behind hanswers, hfirst⟩

/-- The profiles of some rows cover their fields: they are those of the names that some row holds,
in the order of a record that is filled with them, and each tells whether its field is null in
some row, and whether it is anything else in one. -/
structure Covers (rows : List Row) (profiles : Record Profile) : Prop where
  names_eq : Record.names profiles = Record.keyOrder (rows.flatMap Record.names)
  nullable_iff : ∀ name p, Record.get? profiles name = some p →
    (p.nullable = true ↔ ∃ row ∈ rows, (name, Value.null) ∈ row)
  type_eq_null_iff : ∀ name p, Record.get? profiles name = some p →
    (p.type = .null ↔ ¬∃ row ∈ rows, ∃ v, (name, v) ∈ row ∧ v ≠ .null)

theorem covers_of_names (h : (ofRows maxSamples noted rows).1 = .ok profiles)
    (hnames : Record.names profiles = Record.keyOrder (rows.flatMap Record.names)) :
    Covers rows profiles := by
  refine ⟨hnames, fun name p hp => ?_, fun name p hp => ?_⟩
  · rw [eq_ofValues_of_get? h hp, ofValues, List.any_eq_true, ← mem_valuesUnder_flatten]
    simp [Value.isNull_iff]
  · rw [eq_ofValues_of_get? h hp, ofValues, typeOf_eq_null_iff]
    constructor
    · rintro hall ⟨row, hrow, v, hv, hpresent⟩
      exact hpresent (hall v (mem_valuesUnder_flatten.mpr ⟨row, hrow, hv⟩))
    · intro hnone v hv
      obtain ⟨row, hrow, hv⟩ := mem_valuesUnder_flatten.mp hv
      by_contra hpresent
      exact hnone ⟨row, hrow, v, hv, hpresent⟩

/-- Whatever samples are taken and whatever was noted before, rows can be surveyed with all their
fields exactly when none of their names is one that every record answers to. -/
theorem covers_iff (maxSamples : Option Nat) (noted : Record.Noted) (rows : List Row) :
    (∃ profiles, (ofRows maxSamples noted rows).1 = .ok profiles ∧ Covers rows profiles) ↔
      ∀ row ∈ rows, ∀ name ∈ Record.names row, noted.answers name = false := by
  constructor
  · rintro ⟨profiles, hprofiles, hcovers⟩ row hrow name hname
    rw [← Bool.not_eq_true]
    intro hanswers
    have hbuiltin := isBuiltin_of_ofRows hprofiles hrow hname hanswers
    obtain ⟨s, hs, rfl⟩ := describes_ofRows hprofiles
    have hmem : name ∈ Record.keyOrder (rows.flatMap Record.names) :=
      Record.mem_keyOrder.mpr (List.mem_flatMap.mpr ⟨row, hrow, hname⟩)
    rw [← hcovers.names_eq, ← Record.has_iff, hs.has_eq_false hbuiltin] at hmem
    cases hmem
  · intro hown
    obtain ⟨profiles, hprofiles⟩ := exists_ofRows maxSamples hown
    refine ⟨profiles, hprofiles, covers_of_names hprofiles ?_⟩
    obtain ⟨s, hs, rfl⟩ := describes_ofRows hprofiles
    have hnames : ∀ row ∈ rows, ∀ name ∈ Record.names row, Record.isBuiltin name = false :=
      fun row hrow name hname => Record.Noted.isBuiltin_of_answers (hown row hrow name hname)
    rw [hs.names_eq, ownFields_flatten hnames, flatMap_names]

/-- A field named like a function that every record answers to is left out. -/
theorem not_covers : ¬∀ (maxSamples : Option Nat) (rows : List Row),
    (∀ row ∈ rows, "__proto__" ∉ Record.names row) →
      ∃ profiles, (ofRows maxSamples {} rows).1 = .ok profiles ∧ Covers rows profiles := by
  intro h
  obtain ⟨profiles, hprofiles, hcovers⟩ :=
    h none [[("constructor", .string "x")]] (by decide)
  cases Except.ok.inj (hprofiles : Except.ok [] = Except.ok profiles)
  have hmem : "constructor" ∈ Record.keyOrder ["constructor"] :=
    Record.mem_keyOrder.mpr List.mem_cons_self
  rw [show Record.keyOrder ["constructor"] = [] from hcovers.names_eq.symm] at hmem
  cases hmem

end Profile
end TableQuery
