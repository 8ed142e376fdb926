import TableQuery.Proofs.Describe.SurveyedFields

/-! # Types and the order of rows

The profile of a field tells the least type above all its values, and whether any of them is
null. Neither depends on the order of the rows, and a field is mixed where two of its values are
of types that disagree.
-/
namespace TableQuery.Profile

/-- The names of the types of a list without items and of another list. -/
def ListNames (a b : String) : Prop := a = "array" ∧ ∃ item, b = "array[" ++ item ++ "]"

/-- Two names of types differ, and they are not those of a list without items and another list. -/
def Conflict (a b : String) : Prop := a ≠ b ∧ ¬ListNames a b ∧ ¬ListNames b a

/-- A value that some row holds under a name and that is not null. -/
def PresentIn (rows : List Row) (name : String) (v : Value) : Prop :=
  v ≠ .null ∧ ∃ row ∈ rows, (name, v) ∈ row

theorem conflict_iff {a b : TypeName} : Conflict a.text b.text ↔ TypeName.Disagree a b := by
  have hlists (a b : TypeName) :
      ListNames a.text b.text ↔ a = .array ∧ b.isArrayOf = true := by
    rw [ListNames, TypeName.text_eq_array_iff, TypeName.text_eq_arrayOf_iff]
  rw [Conflict, hlists, hlists, TypeName.Disagree]
  exact and_congr_left' (not_congr ⟨TypeName.text_injective, fun h => h ▸ rfl⟩)

theorem mem_present_valuesUnder {rows : List Row} {name : String} {v : Value} :
    v ∈ present (valuesUnder name rows.flatten) ↔ PresentIn rows name v := by
  rw [present, List.mem_filter, mem_valuesUnder_flatten, PresentIn, and_comm, ne_eq,
    ← Value.isNull_iff]
  simp

theorem typeOf_of_perm {values others : List Value} (h : values.Perm others) :
    typeOf values = typeOf others :=
  TypeName.joinAll_of_perm (null_notMem_typeNames values) ((h.filter _).map _)

theorem typeOf_eq_mixed_iff {values : List Value} : typeOf values = .mixed ↔
    ∃ v ∈ present values, ∃ w ∈ present values, TypeName.Disagree v.typeName w.typeName := by
  have hmixed : TypeName.mixed ∉ (present values).map Value.typeName := by
    intro hmem
    obtain ⟨v, -, hname⟩ := List.mem_map.mp hmem
    exact v.typeName_ne_mixed hname
  rw [typeOf, TypeName.joinAll_eq_mixed_iff (null_notMem_typeNames values) hmixed]
  simp only [List.mem_map]
  constructor
  · rintro ⟨_, ⟨v, hv, rfl⟩, _, ⟨w, hw, rfl⟩, hdisagree⟩
    exact ⟨v, hv, w, hw, hdisagree⟩
  · rintro ⟨v, hv, w, hw, hdisagree⟩
    exact ⟨_, ⟨v, hv, rfl⟩, _, ⟨w, hw, rfl⟩, hdisagree⟩

theorem typeOf_text_eq_mixed_iff {rows : List Row} {name : String} :
    (typeOf (valuesUnder name rows.flatten)).text = "mixed" ↔ ∃ v w, PresentIn rows name v ∧
      PresentIn rows name w ∧ Conflict v.typeName.text w.typeName.text := by
  have htext : (typeOf (valuesUnder name rows.flatten)).text = "mixed" ↔
      typeOf (valuesUnder name rows.flatten) = .mixed :=
    ⟨fun h => TypeName.text_injective h, fun h => h ▸ rfl⟩
  rw [htext, typeOf_eq_mixed_iff]
  simp only [mem_present_valuesUnder, conflict_iff]
  constructor
  · rintro ⟨v, hv, w, hw, hdisagree⟩
    exact ⟨v, w, hv, hw, hdisagree⟩
  · rintro ⟨v, w, hv, hw, hdisagree⟩
    exact ⟨v, hv, w, hw, hdisagree⟩

def verdict (p : Profile) : String × Bool := (p.type.text, p.nullable)

theorem has_ofRows {maxSamples : Option Nat} {noted : Record.Noted} {rows : List Row}
    {profiles : Record Profile} (h : (ofRows maxSamples noted rows).1 = .ok profiles)
    (hown : ∀ row ∈ rows, ∀ name ∈ Record.names row, Record.isBuiltin name = false) (name : String) :
    Record.has profiles name = true ↔ ∃ row ∈ rows, name ∈ Record.names row := by
  have hget := get?_of_ofRows h name
  rw [ownFields_flatten hown] at hget
  rw [← mem_names_flatten, Record.has_iff, ← not_iff_not, ← Record.get?_eq_none_iff, hget]
  simp

/-- Rows in another order, surveyed at another time, show the same fields with the same types, and
which of them are null in some row. They are the fields of all rows, and a type is mixed where two
of the values conflict. -/
theorem verdicts_of_perm {rows others : List Row} (hperm : rows.Perm others)
    (noted noted' : Record.Noted)
    (hown : ∀ row ∈ rows, ∀ name ∈ Record.names row,
      noted.answers name = false ∧ noted'.answers name = false)
    (maxSamples : Option Nat) :
    ∃ profiles profiles', (ofRows maxSamples noted rows).1 = .ok profiles ∧
      (ofRows maxSamples noted' others).1 = .ok profiles' ∧
      (∀ name, (Record.get? profiles name).map verdict = (Record.get? profiles' name).map verdict) ∧
      ∀ name, (Record.has profiles name = true ↔ ∃ row ∈ rows, name ∈ Record.names row) ∧
        ∀ p, Record.get? profiles name = some p →
          (p.type.text = "mixed" ↔ ∃ v w, PresentIn rows name v ∧ PresentIn rows name w ∧
            Conflict v.typeName.text w.typeName.text) := by
  have hnames : ∀ row ∈ rows, ∀ name ∈ Record.names row, Record.isBuiltin name = false :=
    fun row hrow name hname => Record.Noted.isBuiltin_of_answers (hown row hrow name hname).1
  have hothers : ∀ row ∈ others, ∀ name ∈ Record.names row, noted'.answers name = false :=
    fun row hrow name hname => (hown row (hperm.mem_iff.mpr hrow) name hname).2
  obtain ⟨profiles, hprofiles⟩ := exists_ofRows maxSamples fun row hrow name hname =>
    (hown row hrow name hname).1
  obtain ⟨profiles', hprofiles'⟩ := exists_ofRows maxSamples hothers
  refine ⟨profiles, profiles', hprofiles, hprofiles', fun name => ?_,
    fun name => ⟨has_ofRows hprofiles hnames name, fun p hp => ?_⟩⟩
  · have hflat : rows.flatten.Perm others.flatten := hperm.flatten
    have hvalues : (valuesUnder name rows.flatten).Perm (valuesUnder name others.flatten) :=
      (hflat.filter _).map _
    have hsame : verdict (ofValues maxSamples (valuesUnder name rows.flatten)) =
        verdict (ofValues maxSamples (valuesUnder name others.flatten)) := by
      simp [verdict, ofValues, typeOf_of_perm hvalues, hvalues.any_eq]
    have hmem : name ∈ rows.flatten.map (·.1) ↔ name ∈ others.flatten.map (·.1) :=
      (hflat.map _).mem_iff
    rw [get?_of_ofRows hprofiles, get?_of_ofRows hprofiles', ownFields_flatten hnames,
      ownFields_flatten fun row hrow => hnames row (hperm.mem_iff.mpr hrow)]
    by_cases hname : name ∈ rows.flatten.map (·.1)
    · rw [if_pos hname, if_pos (hmem.mp hname)]
      exact congrArg some hsame
    · rw [if_neg hname, if_neg (fun h => hname (hmem.mpr h))]
  · rw [eq_ofValues_of_get? hprofiles hp]
    exact typeOf_text_eq_mixed_iff

/-- Two rows that agree in the type of one field only, where the first one has a list without
items. -/
def unlikeRows : List Row :=
  [[("tags", .list []), ("size", .bool true)],
    [("size", .string "big"), ("tags", .list [.string "key"])]]

theorem verdicts_of_perm_unlike : ∃ profiles profiles',
    (ofRows none {} unlikeRows).1 = .ok profiles ∧
      (ofRows none ⟨["valueOf"], true⟩ unlikeRows.reverse).1 = .ok profiles' ∧
      (Record.get? profiles "tags").map verdict = (Record.get? profiles' "tags").map verdict ∧
      ∃ p, Record.get? profiles "size" = some p ∧
        (p.type.text = "mixed" ↔ ∃ v w, PresentIn unlikeRows "size" v ∧
          PresentIn unlikeRows "size" w ∧ Conflict v.typeName.text w.typeName.text) := by
  obtain ⟨profiles, profiles', hprofiles, hprofiles', hverdicts, hfields⟩ :=
    verdicts_of_perm (List.reverse_perm unlikeRows).symm {} ⟨["valueOf"], true⟩ (by decide) none
  have hheld : Record.has profiles "size" = true := (hfields "size").1.mpr (by decide)
  obtain ⟨p, hp⟩ := Option.isSome_iff_exists.mp hheld
  exact ⟨profiles, profiles', hprofiles, hprofiles', hverdicts "tags", p, hp, (hfields "size").2 p hp⟩

end TableQuery.Profile
