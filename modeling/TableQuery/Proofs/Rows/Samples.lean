import TableQuery.Proofs.Number.Extremes
import TableQuery.Proofs.Value.Structure
import TableQuery.Rows.Summary

/-! # Counts and samples

Counting counts the rows that pass a test, and the sample of a field holds no NaN where the rows
hold none. So the least and the greatest number of a sample are determined by its members, and
neither they nor a count depend on the order of the rows.
-/
namespace TableQuery

namespace Value

/-- Whether a value is no number or one that is not NaN. -/
abbrev NotNaN : Value → Prop := NumberIs fun x => !Number.isNaN x

theorem isNaN_of_number? {v : Value} (hv : v.NotNaN) {x : Float} (h : v.number? = some x) :
    Number.isNaN x = false := by
  unfold NotNaN NumberIs at hv
  rw [h] at hv
  simpa using hv

theorem notNaN_of_readNumber? {cs : List Char} {v : Value} (h : readNumber? cs = some v) :
    v.NotNaN := by
  unfold readNumber? at h
  obtain ⟨x, hx, rfl⟩ := Option.map_eq_some_iff.mp h
  have hnumber := Number.isNaN_of_ofDecimalText? hx
  unfold NotNaN NumberIs whole
  split
  · simp [number?, hnumber]
  · simp [number?, Number.isNaN_truncate hnumber]

theorem isNaN_of_sampleNumber? {v : Value} (hv : v.NotNaN) {x : Float}
    (h : v.sampleNumber? = some x) : Number.isNaN x = false := by
  cases v with
  | null => cases h
  | bool b =>
    cases h
    exact Number.isNaN_ofNat _
  | int y => exact isNaN_of_number? hv h
  | float y => exact isNaN_of_number? hv h
  | string s =>
    obtain ⟨w, hw, hx⟩ := Option.bind_eq_some_iff.mp h
    exact isNaN_of_number? (notNaN_of_readNumber? hw) hx
  | list items => cases h
  | map fields => cases h

end Value

namespace Rows
variable {rows others : List Row} {field : String}

theorem isNaN_of_mem_sample (hrows : ∀ row ∈ rows, row.All Value.NotNaN) {x : Float}
    (h : x ∈ sample field rows) : Number.isNaN x = false := by
  obtain ⟨row, hrow, hx⟩ := List.mem_filterMap.mp h
  obtain ⟨v, hv, hx⟩ := Option.bind_eq_some_iff.mp hx
  exact Value.isNaN_of_sampleNumber? (Row.All.resolve? (hrows row hrow) hv).self hx

theorem mem_sample_iff {x : Float} : x ∈ sample field rows ↔
    ∃ row ∈ rows, (row.resolve? field).bind Value.sampleNumber? = some x := List.mem_filterMap

/-- Whether a row counts for a field; every row counts for a star. -/
def isCounted (field : String) (row : Row) : Bool :=
  field == "*" || !(row.lookup field).isNull

theorem summarize_count {call : Call} (h : call.function = .count) (rows : List Row) :
    summarize call rows = .ofNat (rows.countP (isCounted call.field)) := by
  unfold summarize isCounted
  rw [h]
  dsimp only
  split
  · next hstar =>
    have hall : (call.field == "*") = true := beq_iff_eq.mpr hstar
    simp only [hall, Bool.true_or, List.countP_true]
  · next hfield =>
    have hnone : (call.field == "*") = false := beq_eq_false_iff_ne.mpr hfield
    simp only [hnone, Bool.false_or]

/-- What is chosen from a sample, null from an empty one. -/
def extreme (choose : Float → Float → Float) : List Float → Value
  | [] => .null
  | x :: xs => .float (xs.foldl choose x)

theorem summarize_min {call : Call} (h : call.function = .min) (rows : List Row) :
    summarize call rows = extreme Number.least (sample call.field rows) := by
  unfold summarize
  rw [h]
  dsimp only
  cases sample call.field rows <;> rfl

theorem summarize_max {call : Call} (h : call.function = .max) (rows : List Row) :
    summarize call rows = extreme Number.greatest (sample call.field rows) := by
  unfold summarize
  rw [h]
  dsimp only
  cases sample call.field rows <;> rfl

section
variable {choose : Float → Float → Float} {place : Float → Int} {xs ys : List Float}

theorem extreme_eq_null_iff : extreme choose xs = .null ↔ xs = [] := by
  cases xs <;> simp [extreme]

theorem extreme_eq_float_iff (h : Number.Chooses choose place)
    (hxs : ∀ x ∈ xs, Number.isNaN x = false) {m : Float} :
    extreme choose xs = .float m ↔ m ∈ xs ∧ ∀ x ∈ xs, choose m x = m := by
  have hlowest {m : Float} (hm : m ∈ xs) :
      (∀ x ∈ xs, choose m x = m) ↔ ∀ x ∈ xs, place m ≤ place x :=
    forall₂_congr fun x hx => h.eq_left_iff (hxs m hm) (hxs x hx)
  cases xs with
  | nil => simp [extreme]
  | cons x xs =>
    obtain ⟨hmem, hchosen⟩ := h.foldl_mem hxs
    rw [extreme, Value.float.injEq]
    constructor
    · rintro rfl
      exact ⟨hmem, (hlowest hmem).mpr hchosen⟩
    · rintro ⟨hm, hfirst⟩
      exact h.unique hmem hm hchosen ((hlowest hm).mp hfirst)

theorem extreme_congr (h : Number.Chooses choose place) (hxs : ∀ x ∈ xs, Number.isNaN x = false)
    (hmem : ∀ x, x ∈ xs ↔ x ∈ ys) : extreme choose xs = extreme choose ys := by
  have hys : ∀ y ∈ ys, Number.isNaN y = false := fun y hy => hxs y ((hmem y).mpr hy)
  cases hx : extreme choose xs with
  | null =>
    rw [extreme_eq_null_iff] at hx
    refine (extreme_eq_null_iff.mpr (List.eq_nil_iff_forall_not_mem.mpr fun y hy => ?_)).symm
    rw [← hmem, hx] at hy
    cases hy
  | float m =>
    rw [extreme_eq_float_iff h hxs] at hx
    refine ((extreme_eq_float_iff h hys).mpr ⟨(hmem m).mp hx.1, fun y hy => ?_⟩).symm
    exact hx.2 y ((hmem y).mpr hy)
  | _ => cases xs <;> cases hx

/-- Whether a value is the first choice among values that are null or numbers: null if they all
are, and otherwise a number among them that is chosen before each of them. -/
structure IsExtreme (choose : Float → Float → Float) (values : List Value) (v : Value) : Prop where
  kinds : ∀ w ∈ v :: values, w = .null ∨ ∃ x, w = .float x
  null_iff : v = .null ↔ ∀ w ∈ values, w = .null
  chosen : ∀ m, v = .float m → .float m ∈ values ∧ ∀ x, .float x ∈ values → choose m x = m

theorem extreme_kinds (xs : List Float) :
    extreme choose xs = .null ∨ ∃ x, extreme choose xs = .float x := by
  cases xs with
  | nil => exact Or.inl rfl
  | cons x xs => exact Or.inr ⟨_, rfl⟩

theorem isExtreme_map (h : Number.Chooses choose place) {samples : List (List Float)}
    (hxs : ∀ x ∈ xs, Number.isNaN x = false)
    (hmem : ∀ x, x ∈ xs ↔ ∃ ys ∈ samples, x ∈ ys) :
    IsExtreme choose (samples.map (extreme choose)) (extreme choose xs) where
  kinds := by
    intro w hw
    rcases List.mem_cons.mp hw with rfl | hw
    · exact extreme_kinds xs
    · obtain ⟨ys, -, rfl⟩ := List.mem_map.mp hw
      exact extreme_kinds ys
  null_iff := by
    rw [extreme_eq_null_iff, List.forall_mem_map]
    simp only [extreme_eq_null_iff, List.eq_nil_iff_forall_not_mem, hmem]
    exact ⟨fun h ys hys x hx => h x ⟨ys, hys, hx⟩, fun h x ⟨ys, hys, hx⟩ => h ys hys x hx⟩
  chosen := by
    have hpart {ys : List Float} (hys : ys ∈ samples) {x : Float} (hx : x ∈ ys) : x ∈ xs :=
      (hmem x).mpr ⟨ys, hys, hx⟩
    have hnumbers {ys : List Float} (hys : ys ∈ samples) : ∀ y ∈ ys, Number.isNaN y = false :=
      fun y hy => hxs y (hpart hys hy)
    intro m hm
    rw [extreme_eq_float_iff h hxs] at hm
    constructor
    · obtain ⟨ys, hys, hmys⟩ := (hmem m).mp hm.1
      refine List.mem_map.mpr ⟨ys, hys, (extreme_eq_float_iff h (hnumbers hys)).mpr ⟨hmys, ?_⟩⟩
      exact fun y hy => hm.2 y (hpart hys hy)
    · intro x hx
      obtain ⟨ys, hys, hextreme⟩ := List.mem_map.mp hx
      exact hm.2 x (hpart hys ((extreme_eq_float_iff h (hnumbers hys)).mp hextreme).1)

end

theorem summarize_of_perm_extreme {choose : Float → Float → Float} {place : Float → Int}
    (hchoose : Number.Chooses choose place) {call : Call}
    (hsummarize : ∀ rows, summarize call rows = extreme choose (sample call.field rows))
    (hrows : ∀ row ∈ rows, row.All Value.NotNaN) (hperm : rows.Perm others) :
    summarize call rows = summarize call others := by
  rw [hsummarize, hsummarize]
  apply extreme_congr hchoose
  · exact fun x hx => isNaN_of_mem_sample hrows hx
  · intro x
    simp only [mem_sample_iff, hperm.mem_iff]

theorem summarize_of_perm {call : Call}
    (hfunction : call.function = .count ∨ call.function = .min ∨ call.function = .max)
    (hrows : ∀ row ∈ rows, row.All Value.NotNaN) (hperm : rows.Perm others) :
    summarize call rows = summarize call others := by
  rcases hfunction with h | h | h
  · rw [summarize_count h, summarize_count h, hperm.countP_eq]
  · exact summarize_of_perm_extreme Number.chooses_least (summarize_min h) hrows hperm
  · exact summarize_of_perm_extreme Number.chooses_greatest (summarize_max h) hrows hperm

end Rows
end TableQuery
