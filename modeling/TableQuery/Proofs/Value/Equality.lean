import Mathlib.Data.List.Perm.Subperm
import TableQuery.Proofs.Number.Rank
import TableQuery.Proofs.Text.UnitOrder
import TableQuery.Proofs.Value.Structure
import TableQuery.Value.Key

/-! # Equal values and their keys

Equal values are shown as equal plain data, and plain data are equal whatever the order of the
fields in their records. Equal values in which no map names a field twice have the same key:
numbers are written by their rank, and fields are sorted by their names.
-/
namespace TableQuery

namespace Plain

mutual
/-- Whether two plain data are equal, where the order of fields does not count. -/
def equal : Plain → Plain → Bool
  | .null, .null => true
  | .bool a, .bool b => a == b
  | .number x, .number y => Number.same x y
  | .string a, .string b => a == b
  | .list as, .list bs => equalItems as bs
  | .map as, .map bs => as.length == bs.length && equalFields as bs
  | _, _ => false

def equalItems : List Plain → List Plain → Bool
  | [], [] => true
  | a :: as, b :: bs => equal a b && equalItems as bs
  | _, _ => false

/-- Whether every field of the first record has an equal field in the second. -/
def equalFields : List (String × Plain) → List (String × Plain) → Bool
  | [], _ => true
  | (name, a) :: as, bs =>
    (match Record.get? bs name with
      | some b => equal a b
      | none => false) && equalFields as bs
end

theorem equalFields_iff {as bs : PlainRow} : equalFields as bs = true ↔
    ∀ field ∈ as, ∃ b, Record.get? bs field.1 = some b ∧ equal field.2 b = true := by
  induction as with
  | nil => simp [equalFields]
  | cons field as ih =>
    obtain ⟨name, a⟩ := field
    rw [equalFields, Bool.and_eq_true, ih, List.forall_mem_cons]
    cases Record.get? bs name <;> simp

end Plain

namespace Value

theorem length_ofList_toPlainFields {fields : Row} (h : Record.Proper fields) :
    (Record.ofList (toPlainFields fields)).length = fields.length := by
  have hproper := h.map toPlain
  rw [toPlainFields_eq_map, (Record.perm_ofList hproper.nodup hproper.noProto).length_eq,
    List.length_map]

theorem equal_toPlain {v w : Value} (hv : v.Proper) (hw : w.Proper) :
    Plain.equal v.toPlain w.toPlain = equal v w := by
  induction v using induction generalizing w with
  | list items ih =>
    cases w with
    | list others =>
      rw [proper_list_iff] at hv hw
      rw [toPlain, toPlain, Plain.equal, equal]
      induction items generalizing others with
      | nil => cases others <;> rfl
      | cons item items ihItems =>
        cases others with
        | nil => rfl
        | cons other others =>
          obtain ⟨hitem, hitems⟩ := List.forall_mem_cons.mp hv
          obtain ⟨hother, hothers⟩ := List.forall_mem_cons.mp hw
          rw [toPlainItems, toPlainItems, Plain.equalItems, equalItems,
            ih item List.mem_cons_self hitem hother,
            ihItems (fun item hitem => ih item (List.mem_cons_of_mem _ hitem)) hitems others hothers]
    | _ => rfl
  | map fields ih =>
    cases w with
    | map others =>
      obtain ⟨hfields, hvalues⟩ := proper_map_iff.mp hv
      obtain ⟨hothers, hotherValues⟩ := proper_map_iff.mp hw
      have hproper := hfields.map toPlain
      have hperm := Record.perm_ofList hproper.nodup hproper.noProto
      rw [toPlain, toPlain, Plain.equal, equal, length_ofList_toPlainFields hfields,
        length_ofList_toPlainFields hothers, Bool.eq_iff_iff, Bool.and_eq_true, Bool.and_eq_true,
        Plain.equalFields_iff, equalFields_iff, toPlainFields_eq_map, toPlainFields_eq_map]
      refine and_congr_right fun _ => ?_
      simp only [hperm.mem_iff, List.forall_mem_map, (hothers.map toPlain).get?_ofList,
        Record.get?_map]
      refine forall₂_congr fun field hfield => ?_
      cases hother : Record.get? others field.1 with
      | none => simp
      | some w =>
        simp [ih field hfield (hvalues field hfield) (hotherValues _ (Record.mem_of_get? hother))]
    | _ => rfl
  | _ => cases w <;> rfl

theorem shapeItems_eq_map (items : List Value) : shapeItems items = items.map shape := by
  induction items with
  | nil => rfl
  | cons item items ih => rw [shapeItems, ih, List.map_cons]

theorem shapeFields_eq_map (fields : List (String × Value)) :
    shapeFields fields = fields.map fun field => (field.1, field.2.shape) := by
  induction fields with
  | nil => rfl
  | cons field fields ih => rw [shapeFields, ih, List.map_cons]

theorem jsonItems_eq_map (items : List Plain) : Plain.jsonItems items = items.map Plain.json := by
  induction items with
  | nil => rfl
  | cons item items ih => rw [Plain.jsonItems, ih, List.map_cons]

def keyChars (v : Value) : List Char := v.shape.json

/-- The fields of a map in the order of their names, each with the text of its value. -/
def keyFields (fields : List (String × Value)) : List (String × List Char) :=
  (fields.map fun field => (field.1, field.2.keyChars)).mergeSort
    fun a b => (Text.order a.1 b.1).isLE

def fieldChars (field : String × List Char) : List Char :=
  '[' :: (Json.commas [Json.quoted field.1.toList, field.2] ++ [']'])

theorem tupleKey_eq (values : List Value) :
    tupleKey values = String.ofList ('[' :: (Json.commas (values.map keyChars) ++ [']'])) := by
  unfold tupleKey Plain.jsonText
  rw [Plain.json, jsonItems_eq_map, shapeItems_eq_map, List.map_map]
  rfl

theorem keyChars_int (x : Float) : (Value.int x).keyChars =
    '[' :: (Json.commas [Json.quoted "n".toList, Json.numberChars x] ++ [']']) := rfl

theorem keyChars_of_same {x y : Float} (h : Number.same x y = true) :
    (Value.int x).keyChars = (Value.int y).keyChars := by
  rw [keyChars_int, keyChars_int, Number.numberChars_of_same h]

theorem keyChars_list (items : List Value) : (Value.list items).keyChars =
    '[' :: (Json.commas [Json.quoted "l".toList,
      '[' :: (Json.commas (items.map keyChars) ++ [']'])] ++ [']']) := by
  rw [keyChars, shape, tagged, Plain.json, Plain.jsonItems, Plain.jsonItems, Plain.jsonItems,
    Plain.json, Plain.json, jsonItems_eq_map, shapeItems_eq_map, List.map_map]
  rfl

theorem keyChars_map (fields : List (String × Value)) : (Value.map fields).keyChars =
    '[' :: (Json.commas [Json.quoted "m".toList,
      '[' :: (Json.commas ((keyFields fields).map fieldChars) ++ [']'])] ++ [']']) := by
  have hsorted : ((shapeFields fields).mergeSort fun a b => (Text.order a.1 b.1).isLE).map
      (fun field => (field.1, field.2.json)) = keyFields fields := by
    unfold keyFields
    rw [shapeFields_eq_map, List.map_mergeSort (s := fun a b => (Text.order a.1 b.1).isLE),
      List.map_map]
    · rfl
    · intro a _ b _
      rfl
  rw [keyChars, shape, tagged, Plain.json, Plain.jsonItems, Plain.jsonItems, Plain.jsonItems,
    Plain.json, Plain.json, jsonItems_eq_map, ← hsorted, List.map_map, List.map_map]
  rfl

theorem keyFields_of_equal {as bs : Row} (ha : (Record.names as).Nodup)
    (hb : (Record.names bs).Nodup)
    (hlength : as.length = bs.length)
    (hfields : ∀ field ∈ as, ∃ b, Record.get? bs field.1 = some b ∧
      field.2.keyChars = b.keyChars) : keyFields as = keyFields bs := by
  have hnames (fields : Row) :
      (fields.map fun field => (field.1, field.2.keyChars)).map Prod.fst = Record.names fields :=
    List.map_map
  have hsubset : (as.map fun field => (field.1, field.2.keyChars)) ⊆
      bs.map fun field => (field.1, field.2.keyChars) := by
    intro entry hentry
    obtain ⟨field, hfield, rfl⟩ := List.mem_map.mp hentry
    obtain ⟨b, hb, hkey⟩ := hfields field hfield
    exact List.mem_map.mpr ⟨(field.1, b), Record.mem_of_get? hb, by rw [hkey]⟩
  have hperm : (as.map fun field => (field.1, field.2.keyChars)).Perm
      (bs.map fun field => (field.1, field.2.keyChars)) := by
    have hnodup := List.Nodup.of_map _ ((hnames as).symm ▸ ha)
    refine (List.subperm_of_subset hnodup hsubset).perm_of_length_le ?_
    rw [List.length_map, List.length_map]
    exact Nat.le_of_eq hlength.symm
  have hsorted (fields : Row) : (keyFields fields).Pairwise fun a b =>
      (Text.order a.1 b.1).isLE = true :=
    List.pairwise_mergeSort (fun _ _ _ => Std.TransCmp.isLE_trans)
      (fun _ _ => Text.order_isLE_total _ _) _
  refine List.Perm.eq_of_pairwise ?_ (hsorted as) (hsorted bs)
    ((List.mergeSort_perm _ _).trans (hperm.trans (List.mergeSort_perm _ _).symm))
  intro a b hmemA hmemB hab hba
  have hname : a.1 = b.1 :=
    Std.LawfulEqCmp.eq_of_compare (Std.OrientedCmp.isLE_antisymm hab hba)
  have hmemA := hsubset ((List.mergeSort_perm _ _).mem_iff.mp hmemA)
  have hmemB := (List.mergeSort_perm _ _).mem_iff.mp hmemB
  exact List.inj_on_of_nodup_map ((hnames bs).symm ▸ hb) hmemA hmemB hname

theorem map_keyChars_of_equal {vs ws : List Value}
    (hkeys : ∀ v ∈ vs, ∀ w ∈ ws, equal v w = true → v.keyChars = w.keyChars)
    (h : List.Forall₂ (fun v w => equal v w = true) vs ws) :
    vs.map keyChars = ws.map keyChars := by
  induction h with
  | nil => rfl
  | cons hequal _ ih =>
    rw [List.map_cons, List.map_cons, hkeys _ List.mem_cons_self _ List.mem_cons_self hequal,
      ih fun v hv w hw => hkeys v (List.mem_cons_of_mem _ hv) w (List.mem_cons_of_mem _ hw)]

theorem keyChars_of_equal {v w : Value} (hv : v.All DistinctNames) (hw : w.All DistinctNames)
    (h : equal v w = true) : v.keyChars = w.keyChars := by
  induction v using induction generalizing w with
  | null =>
    cases w with
    | null => rfl
    | _ => cases h
  | bool b =>
    cases w with
    | bool c => rw [beq_iff_eq.mp h]
    | _ => cases h
  | string s =>
    cases w with
    | string t => rw [beq_iff_eq.mp h]
    | _ => cases h
  | int x | float x =>
    cases w with
    | int y | float y => exact keyChars_of_same h
    | _ => cases h
  | list items ih =>
    cases w with
    | list others =>
      rw [equal, equalItems_iff] at h
      rw [all_list_iff] at hv hw
      rw [keyChars_list, keyChars_list, map_keyChars_of_equal _ h]
      intro item hitem other hother hequal
      exact ih item hitem (hv.2 item hitem) (hw.2 other hother) hequal
    | _ => cases h
  | map fields ih =>
    cases w with
    | map others =>
      rw [equal, Bool.and_eq_true, beq_iff_eq, equalFields_iff] at h
      obtain ⟨hfields, hitems⟩ := all_map_iff.mp hv
      obtain ⟨hothers, -⟩ := all_map_iff.mp hw
      rw [keyChars_map, keyChars_map, keyFields_of_equal hfields hothers h.1]
      intro field hfield
      obtain ⟨b, hb, hequal⟩ := h.2 field hfield
      exact ⟨b, hb, ih field hfield (hitems field hfield) (hw.get? hb) hequal⟩
    | _ => cases h

theorem tupleKey_of_equal {vs ws : List Value} (hv : ∀ v ∈ vs, v.All DistinctNames)
    (hw : ∀ w ∈ ws, w.All DistinctNames)
    (h : List.Forall₂ (fun v w => equal v w = true) vs ws) : tupleKey vs = tupleKey ws := by
  rw [tupleKey_eq, tupleKey_eq,
    map_keyChars_of_equal (fun v hmem w hmem' => keyChars_of_equal (hv v hmem) (hw w hmem')) h]

theorem tupleKey_map_of_equal {names : List String} {f g : String → Value}
    (hf : ∀ name ∈ names, (f name).All DistinctNames)
    (hg : ∀ name ∈ names, (g name).All DistinctNames)
    (h : ∀ name ∈ names, equal (f name) (g name) = true) :
    tupleKey (names.map f) = tupleKey (names.map g) := by
  apply tupleKey_of_equal
  · simpa using hf
  · simpa using hg
  · rw [List.forall₂_map_left_iff, List.forall₂_map_right_iff, List.forall₂_same]
    exact h

theorem get?_of_equal {as bs : Row} (h : equal (.map as) (.map bs) = true) {name : String}
    {a : Value} (ha : Record.get? as name = some a) :
    ∃ b, Record.get? bs name = some b ∧ equal a b = true := by
  rw [equal, Bool.and_eq_true, equalFields_iff] at h
  exact h.2 (name, a) (Record.mem_of_get? ha)

end Value

end TableQuery
