import TableQuery.Proofs.Data.JsonText
import TableQuery.Proofs.Value.Equality

/-! # Keys tell values apart

The key of a value starts with the letter of its kind, and what stands behind it shows where it
ends. So the kind, the items and the fields of a value are read off its key, and values with the
same key are equal.
-/
namespace TableQuery.Value
open Json

/-- The letter of the kind of a value in its key; null has none. -/
def letter? : Value → Option Char
  | .null => none
  | .bool _ => some 'b'
  | .int _ | .float _ => some 'n'
  | .string _ => some 's'
  | .list _ => some 'l'
  | .map _ => some 'm'

/-- What stands in the key of a value behind the letter of its kind. -/
def contentChars : Value → List Char
  | .null => []
  | .bool b => if b then "true".toList else "false".toList
  | .int x | .float x => numberChars x
  | .string s => quoted s.toList
  | .list items => bracketed (items.map keyChars)
  | .map fields => bracketed ((keyFields fields).map fieldChars)

theorem bracketed_pair (a b : List Char) :
    bracketed [a, b] = '[' :: (a ++ ',' :: (b ++ [']'])) := by
  unfold bracketed
  rw [commas_cons]
  simp

theorem keyChars_of_letter {v : Value} {letter : Char} (h : v.letter? = some letter) :
    v.keyChars = '[' :: '"' :: letter :: '"' :: ',' :: (v.contentChars ++ [']']) := by
  cases v with
  | null => cases h
  | list items =>
    cases h
    exact (keyChars_list items).trans (bracketed_pair _ _)
  | map fields =>
    cases h
    exact (keyChars_map fields).trans (bracketed_pair _ _)
  | _ =>
    cases h
    exact bracketed_pair _ _

theorem exists_cons_keyChars (v : Value) : ∃ c cs, v.keyChars = c :: cs ∧ c ≠ ']' := by
  cases hletter : v.letter? with
  | none =>
    cases v with
    | null => exact ⟨'n', _, rfl, by decide⟩
    | _ => cases hletter
  | some letter => exact ⟨'[', _, keyChars_of_letter hletter, by decide⟩

/-- The kind of a value is told by its key, and so is where what follows the letter starts. -/
theorem contentChars_cancel {v w : Value} {rest after : List Char}
    (h : v.keyChars ++ rest = w.keyChars ++ after) :
    v.letter? = w.letter? ∧ v.contentChars ++ ']' :: rest = w.contentChars ++ ']' :: after := by
  cases hv : v.letter? with
  | none =>
    cases v with
    | null =>
      cases hw : w.letter? with
      | none =>
        cases w with
        | null => exact ⟨rfl, congrArg (']' :: ·) (List.append_cancel_left h)⟩
        | _ => cases hw
      | some letter =>
        rw [keyChars_of_letter hw] at h
        exact absurd (List.cons.inj h).1 (by decide)
    | _ => cases hv
  | some letter =>
    rw [keyChars_of_letter hv] at h
    cases hw : w.letter? with
    | none =>
      cases w with
      | null => exact absurd (List.cons.inj h).1 (by decide)
      | _ => cases hw
    | some other =>
      rw [keyChars_of_letter hw] at h
      simp only [List.cons_append, List.append_assoc, List.nil_append, List.cons.injEq, true_and]
        at h
      exact ⟨congrArg some h.1, h.2⟩

def sortedFields (fields : Row) : Row := fields.mergeSort fun a b => (Text.order a.1 b.1).isLE

theorem keyFields_eq (fields : Row) : keyFields fields =
    (sortedFields fields).map fun field => (field.1, field.2.keyChars) := by
  unfold keyFields sortedFields
  rw [List.map_mergeSort (s := fun a b => (Text.order a.1 b.1).isLE)]
  intro a _ b _
  rfl

theorem exists_of_mem_left {α β : Type} {R : α → β → Prop} {as : List α} {bs : List β}
    (h : List.Forall₂ R as bs) {a : α} (ha : a ∈ as) : ∃ b ∈ bs, R a b := by
  induction h with
  | nil => cases ha
  | cons hhead _ ih =>
    rcases List.mem_cons.mp ha with rfl | ha
    · exact ⟨_, List.mem_cons_self, hhead⟩
    · obtain ⟨b, hb, hrel⟩ := ih ha
      exact ⟨b, List.mem_cons_of_mem _ hb, hrel⟩

theorem equal_of_sortedFields {as bs : Row} (hnames : (Record.names bs).Nodup)
    (h : List.Forall₂ (fun a b => a.1 = b.1 ∧ equal a.2 b.2 = true) (sortedFields as)
      (sortedFields bs)) : equal (.map as) (.map bs) = true := by
  have hlengthA : (sortedFields as).length = as.length := (List.mergeSort_perm _ _).length_eq
  have hlengthB : (sortedFields bs).length = bs.length := (List.mergeSort_perm _ _).length_eq
  rw [equal, Bool.and_eq_true, beq_iff_eq, equalFields_iff, ← hlengthA, ← hlengthB]
  refine ⟨h.length_eq, fun a ha => ?_⟩
  obtain ⟨b, hb, hname, hequal⟩ :=
    exists_of_mem_left h ((List.mergeSort_perm as _).mem_iff.mpr ha)
  refine ⟨b.2, ?_, hequal⟩
  rw [hname]
  exact Record.get?_of_mem hnames ((List.mergeSort_perm bs _).mem_iff.mp hb)

abbrev FiniteNumber : Value → Prop := NumberIs Number.isFinite

theorem fieldChars_cancel {a b : String × Value}
    (h : Cancels keyChars (fun v w => equal v w = true) a.2 b.2) :
    Cancels (fun field => fieldChars (field.1, field.2.keyChars))
      (fun a b => a.1 = b.1 ∧ equal a.2 b.2 = true) a b := by
  intro rest after _ _ htext
  have hpair (field : String × Value) : fieldChars (field.1, field.2.keyChars) =
      '[' :: (quoted field.1.toList ++ ',' :: (field.2.keyChars ++ [']'])) := bracketed_pair _ _
  simp only [hpair, List.cons_append, List.append_assoc, List.nil_append, List.cons.injEq,
    true_and] at htext
  obtain ⟨hname, hvalue⟩ := quoted_cancel htext
  obtain ⟨hequal, hrest⟩ := h _ _ (delimited_bracket rest) (delimited_bracket after)
    (List.cons.inj hvalue).2
  exact ⟨⟨String.toList_inj.mp hname, hequal⟩, (List.cons.inj hrest).2⟩

/-- The contents of two values show where they end, and are the same only if the values are
equal. -/
def ContentCancels (v w : Value) : Prop :=
  ∀ rest after, v.contentChars ++ ']' :: rest = w.contentChars ++ ']' :: after →
    equal v w = true ∧ rest = after

theorem cancels_of_content {v w : Value} (h : v.letter? = w.letter? → ContentCancels v w) :
    Cancels keyChars (fun v w => equal v w = true) v w := by
  intro rest after _ _ hchars
  obtain ⟨hletter, hcontent⟩ := contentChars_cancel hchars
  exact h hletter rest after hcontent

theorem contentCancels_null : ContentCancels .null .null := by
  intro rest after h
  exact ⟨rfl, (List.cons.inj h).2⟩

theorem contentCancels_bool (b c : Bool) : ContentCancels (.bool b) (.bool c) := by
  intro rest after h
  cases b <;> cases c
  · exact ⟨rfl, (List.cons.inj (List.append_cancel_left h)).2⟩
  · exact absurd (List.cons.inj h).1 (by decide)
  · exact absurd (List.cons.inj h).1 (by decide)
  · exact ⟨rfl, (List.cons.inj (List.append_cancel_left h)).2⟩

theorem same_of_numberChars {x y : Float} (hx : Number.isFinite x = true)
    (hy : Number.isFinite y = true) {rest after : List Char}
    (h : numberChars x ++ ']' :: rest = numberChars y ++ ']' :: after) :
    Number.same x y = true ∧ rest = after := by
  obtain ⟨hsame, hrest⟩ := numberChars_cancel hx hy (delimited_bracket rest)
    (delimited_bracket after) h
  exact ⟨hsame, (List.cons.inj hrest).2⟩

theorem contentCancels_string (s t : String) : ContentCancels (.string s) (.string t) := by
  intro rest after h
  obtain ⟨hsame, hrest⟩ := quoted_cancel h
  exact ⟨beq_iff_eq.mpr (String.toList_inj.mp hsame), (List.cons.inj hrest).2⟩

theorem contentCancels_list {items others : List Value}
    (h : ∀ item ∈ items, ∀ other ∈ others,
      Cancels keyChars (fun v w => equal v w = true) item other) :
    ContentCancels (.list items) (.list others) := by
  intro rest after hcontent
  obtain ⟨hitems, hrest⟩ := bracketed_cancel h exists_cons_keyChars hcontent
  exact ⟨equalItems_iff.mpr hitems, (List.cons.inj hrest).2⟩

theorem contentCancels_map {fields others : Row} (hnames : (Record.names others).Nodup)
    (h : ∀ field ∈ fields, ∀ other ∈ others,
      Cancels keyChars (fun v w => equal v w = true) field.2 other.2) :
    ContentCancels (.map fields) (.map others) := by
  intro rest after hcontent
  have hmem (fields : Row) {field : String × Value} :
      field ∈ sortedFields fields ↔ field ∈ fields := (List.mergeSort_perm _ _).mem_iff
  simp only [contentChars, keyFields_eq, List.map_map] at hcontent
  obtain ⟨hfields, hrest⟩ := bracketed_cancel
    (fun a ha b hb => fieldChars_cancel (h a ((hmem _).mp ha) b ((hmem _).mp hb)))
    (fun field => ⟨'[', _, rfl, by decide⟩) hcontent
  exact ⟨equal_of_sortedFields hnames hfields, (List.cons.inj hrest).2⟩

theorem keyChars_cancel {v w : Value} (hv : v.All FiniteNumber) (hw : w.All FiniteNumber)
    (hnames : w.All DistinctNames) : Cancels keyChars (fun v w => equal v w = true) v w := by
  induction v using induction generalizing w with
  | null =>
    refine cancels_of_content fun hletter => ?_
    cases w with
    | null => exact contentCancels_null
    | _ => simp [letter?] at hletter
  | bool b =>
    refine cancels_of_content fun hletter => ?_
    cases w with
    | bool c => exact contentCancels_bool b c
    | _ => simp [letter?] at hletter
  | int x | float x =>
    refine cancels_of_content fun hletter => ?_
    cases w with
    | int y | float y => exact fun rest after h => same_of_numberChars hv.self hw.self h
    | _ => simp [letter?] at hletter
  | string s =>
    refine cancels_of_content fun hletter => ?_
    cases w with
    | string t => exact contentCancels_string s t
    | _ => simp [letter?] at hletter
  | list items ih =>
    refine cancels_of_content fun hletter => ?_
    cases w with
    | list others =>
      rw [all_list_iff] at hv hw hnames
      exact contentCancels_list fun item hitem other hother =>
        ih item hitem (hv.2 item hitem) (hw.2 other hother) (hnames.2 other hother)
    | _ => simp [letter?] at hletter
  | map fields ih =>
    refine cancels_of_content fun hletter => ?_
    cases w with
    | map others =>
      rw [all_map_iff] at hv hw hnames
      exact contentCancels_map hnames.1 fun field hfield other hother =>
        ih field hfield (hv.2 field hfield) (hw.2 other hother) (hnames.2 other hother)
    | _ => simp [letter?] at hletter

/-- Whether all numbers in a value are finite and no map in it names a field twice. -/
def Keyable (v : Value) : Prop := v.All FiniteNumber ∧ v.All DistinctNames

theorem tupleKey_eq_iff {vs ws : List Value} (hv : ∀ v ∈ vs, v.Keyable)
    (hw : ∀ w ∈ ws, w.Keyable) :
    tupleKey vs = tupleKey ws ↔ List.Forall₂ (fun v w => equal v w = true) vs ws := by
  constructor
  · intro h
    rw [tupleKey_eq, tupleKey_eq, String.ofList_inj] at h
    refine (bracketed_cancel (fun v hmem w hmem' => ?_) exists_cons_keyChars
      (congrArg (· ++ []) h)).1
    exact keyChars_cancel (hv v hmem).1 (hw w hmem').1 (hw w hmem').2
  · exact tupleKey_of_equal (fun v hmem => (hv v hmem).2) fun w hmem => (hw w hmem).2

theorem tupleKey_int_float (x : Float) : tupleKey [.int x] = tupleKey [.float x] := rfl

theorem tupleKey_map_of_perm {fields others : Row} (h : fields.Perm others)
    (hnames : (Record.names fields).Nodup) :
    tupleKey [.map fields] = tupleKey [.map others] := by
  have hothers : (Record.names others).Nodup := (h.map _).nodup_iff.mp hnames
  have hsorted : keyFields fields = keyFields others :=
    keyFields_of_equal hnames hothers h.length_eq fun field hfield =>
      ⟨field.2, Record.get?_of_mem hothers (h.mem_iff.mp hfield), rfl⟩
  rw [tupleKey_eq, tupleKey_eq, List.map_singleton, List.map_singleton, keyChars_map, keyChars_map,
    hsorted]

theorem letter?_of_equal {v w : Value} (h : equal v w = true) : v.letter? = w.letter? := by
  cases v <;> cases w <;> first | rfl | cases h

/-- Keys are exact: lists of values share a key exactly when they have the same length and are
equal one by one. So no value has the key of a value of another kind, both kinds of a number share
a key, and the order of fields does not matter. -/
theorem tupleKey_exact {vs ws : List Value} (hv : ∀ v ∈ vs, v.Keyable) (hw : ∀ w ∈ ws, w.Keyable) :
    (tupleKey vs = tupleKey ws ↔
      vs.length = ws.length ∧ ∀ v w, (v, w) ∈ vs.zip ws → equal v w = true) ∧
    (tupleKey vs = tupleKey ws → ∀ v w, (v, w) ∈ vs.zip ws → v.letter? = w.letter?) ∧
    (∀ x : Float, tupleKey [.int x] = tupleKey [.float x]) ∧
    ∀ fields others : Row, fields.Perm others → (Record.names fields).Nodup →
      tupleKey [.map fields] = tupleKey [.map others] := by
  have hiff : tupleKey vs = tupleKey ws ↔
      vs.length = ws.length ∧ ∀ v w, (v, w) ∈ vs.zip ws → equal v w = true := by
    rw [tupleKey_eq_iff hv hw, List.forall₂_iff_zip]
  refine ⟨hiff, fun hkey v w hmem => ?_, tupleKey_int_float, fun _ _ => tupleKey_map_of_perm⟩
  exact letter?_of_equal ((hiff.mp hkey).2 v w hmem)

/-- Nested values in which a number has both kinds and the fields of a map are exchanged. -/
theorem tupleKey_exact_nested :
    tupleKey [.list [.int (Number.ofNat 1), .null],
        .map [("a", .string "x"), ("b", .float (Number.ofNat 2))]] =
      tupleKey [.list [.float (Number.ofNat 1), .null],
        .map [("b", .int (Number.ofNat 2)), ("a", .string "x")]] := by
  have hone : Number.isFinite (Number.ofNat 1) = true := Number.isFinite_ofNat (by decide)
  have htwo : Number.isFinite (Number.ofNat 2) = true := Number.isFinite_ofNat (by decide)
  refine (tupleKey_exact ?_ ?_).1.mpr ⟨rfl, ?_⟩
  · simp [Keyable, All, parts, itemParts, fieldParts, NumberIs, number?, DistinctNames,
      Record.names, hone, htwo]
  · simp [Keyable, All, parts, itemParts, fieldParts, NumberIs, number?, DistinctNames,
      Record.names, hone, htwo]
  · intro v w hmem
    have hone := Number.isNaN_of_isFinite hone
    have htwo := Number.isNaN_of_isFinite htwo
    simp only [List.zip_cons_cons, List.zip_nil_right, List.mem_cons, Prod.mk.injEq,
      List.not_mem_nil, or_false] at hmem
    obtain ⟨rfl, rfl⟩ | ⟨rfl, rfl⟩ := hmem
    · simp [equal, equalItems, Number.same, hone]
    · simp [equal, equalFields, Record.get?, List.lookup, Number.same, htwo]

end TableQuery.Value
