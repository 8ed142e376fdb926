import TableQuery.Proofs.Describe.RowOrder
import TableQuery.Proofs.Rows.RepeatedRows

/-! # First samples

The samples of a field are taken from its values that are not null, in the order of the rows, each
text once. So what is sampled is a front of the different values of the field, and where there is
room for all of these, it is all of them.
-/
namespace TableQuery.Profile

/-- Plain data without what repeats an earlier JSON text. -/
def differentTexts (items : List Plain) : List Plain :=
  Rows.newRows (fun a b => a.jsonText == b.jsonText) items

/-- The values that a field has in some rows and that are not null, as plain data. -/
def plainValues (rows : List Row) (name : String) : List Plain :=
  (present (valuesUnder name rows.flatten)).map Value.toPlain

theorem firstTexts_eq_keepFirst (seen : List (List Char)) (items : List Plain) :
    firstTexts seen items = (Rows.keepFirst (seen.map String.ofList)
      (items.map fun item => (item.jsonText, item))).map (·.2) := by
  induction items generalizing seen with
  | nil => rfl
  | cons item items ih =>
    have hinjective : Function.Injective String.ofList := fun _ _ => String.ofList_injective
    have hseen : (seen.map String.ofList).contains item.jsonText = seen.contains item.json := by
      rw [Bool.eq_iff_iff, List.contains_iff_mem, List.contains_iff_mem, Plain.jsonText,
        List.mem_map_of_injective hinjective]
    rw [firstTexts, List.map_cons, Rows.keepFirst, hseen, ih, ih]
    cases seen.contains item.json <;> rfl

theorem firstTexts_eq_firstsBy (items : List Plain) :
    firstTexts [] items = Rows.firstsBy Plain.jsonText items := firstTexts_eq_keepFirst [] items

theorem differentTexts_eq_firstsBy (items : List Plain) :
    differentTexts items = Rows.firstsBy Plain.jsonText items :=
  (Rows.firstsBy_eq_newRows Plain.jsonText items).symm

theorem differentTexts_sublist (items : List Plain) : (differentTexts items).Sublist items := by
  rw [differentTexts_eq_firstsBy]
  exact Rows.firstsBy_sublist

theorem pairwise_differentTexts (items : List Plain) :
    (differentTexts items).Pairwise fun a b => a.jsonText ≠ b.jsonText := by
  rw [differentTexts_eq_firstsBy]
  exact Rows.pairwise_firstsBy

theorem exists_mem_differentTexts {items : List Plain} {item : Plain} (h : item ∈ items) :
    ∃ first ∈ differentTexts items, first.jsonText = item.jsonText := by
  obtain ⟨first, hfirst, hfind⟩ := Rows.exists_mem_firstsBy Plain.jsonText h
  rw [← differentTexts_eq_firstsBy] at hfirst
  have hsame := List.find?_some (p := fun other : Plain => other.jsonText == item.jsonText) hfind
  exact ⟨first, hfirst, beq_iff_eq.mp hsame⟩

variable {rows : List Row} {name : String} {bound : Nat}

theorem samplesOf_eq_take (bound : Nat) (values : List Value) :
    samplesOf bound values = (differentTexts ((present values).map Value.toPlain)).take bound := by
  rw [samplesOf, firstTexts_eq_firstsBy, differentTexts_eq_firstsBy]

theorem mem_plainValues {p : Plain} :
    p ∈ plainValues rows name ↔ ∃ v, PresentIn rows name v ∧ v.toPlain = p := by
  simp only [plainValues, List.mem_map, mem_present_valuesUnder]

/-- The samples of a field are the first of its different values. They differ in their texts, the
field has each of them in some row, and no value is missing where there is room for all. -/
theorem samples_of_rows {noted : Record.Noted}
    (hown : ∀ row ∈ rows, ∀ name ∈ Record.names row, noted.answers name = false) (bound : Nat) :
    ∃ profiles, (ofRows (some bound) noted rows).1 = .ok profiles ∧
      ∀ name, (Record.has profiles name = true ↔ ∃ row ∈ rows, name ∈ Record.names row) ∧
        ∀ p, Record.get? profiles name = some p → ∃ samples, p.samples = some samples ∧
          samples = (differentTexts (plainValues rows name)).take bound ∧
          samples.Pairwise (fun a b => a.jsonText ≠ b.jsonText) ∧
          (∀ sample ∈ samples, ∃ v, PresentIn rows name v ∧ v.toPlain = sample) ∧
          ((differentTexts (plainValues rows name)).length ≤ bound →
            ∀ v, PresentIn rows name v →
              ∃ sample ∈ samples, sample.jsonText = v.toPlain.jsonText) := by
  have hnames : ∀ row ∈ rows, ∀ name ∈ Record.names row, Record.isBuiltin name = false :=
    fun row hrow name hname => Record.Noted.isBuiltin_of_answers (hown row hrow name hname)
  obtain ⟨profiles, hprofiles⟩ := exists_ofRows (some bound) hown
  refine ⟨profiles, hprofiles, fun name => ⟨has_ofRows hprofiles hnames name, fun p hp => ?_⟩⟩
  have htaken : p.samples = some ((differentTexts (plainValues rows name)).take bound) := by
    rw [eq_ofValues_of_get? hprofiles hp, ofValues, Option.map_some, samplesOf_eq_take,
      plainValues]
  refine ⟨_, htaken, rfl, ?_, ?_, ?_⟩
  · exact (pairwise_differentTexts _).sublist (List.take_sublist _ _)
  · intro sample hsample
    have hmem := (differentTexts_sublist _).subset (List.mem_of_mem_take hsample)
    exact mem_plainValues.mp hmem
  · intro hroom v hv
    rw [List.take_of_length_le hroom]
    exact exists_mem_differentTexts (mem_plainValues.mpr ⟨v, hv, rfl⟩)

/-- Rows in which a field is null once and has its first value again before its third one. -/
def sampledRows : List Row :=
  [[("size", .string "big"), ("tag", .null)], [("size", .null), ("tag", .list [])],
    [("tag", .list []), ("size", .bool true)], [("size", .string "big")],
    [("size", .string "small")]]

theorem samples_of_rows_two : ∃ profiles,
    (ofRows (some 2) ⟨["valueOf"], true⟩ sampledRows).1 = .ok profiles ∧
      ∃ p, Record.get? profiles "size" = some p ∧
        p.samples = some [.string "big", .bool true] := by
  have hown : ∀ row ∈ sampledRows, ∀ name ∈ Record.names row,
      Record.Noted.answers ⟨["valueOf"], true⟩ name = false := by
    decide
  obtain ⟨profiles, hprofiles, hfields⟩ := samples_of_rows hown 2
  have hheld : Record.has profiles "size" = true := (hfields "size").1.mpr (by decide)
  obtain ⟨p, hp⟩ := Option.isSome_iff_exists.mp hheld
  obtain ⟨samples, hsamples, htaken, -⟩ := (hfields "size").2 p hp
  refine ⟨profiles, hprofiles, p, hp, hsamples.trans (congrArg some (htaken.trans ?_))⟩
  rfl

end TableQuery.Profile
