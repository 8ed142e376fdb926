import TableQuery.Proofs.Data.RecordFields
import TableQuery.Value.Order
import TableQuery.Value.Path

/-! # The structure of values

A value is a scalar, a list of values, or a record of values. What is shown for these three
holds of all values. The parts of a value are the value itself and the parts of all values in
it. A value is proper when every map among its parts is a proper record; all that is found
inside a proper value is proper.
-/
namespace TableQuery.Value

@[elab_as_elim]
theorem induction {motive : Value → Prop} (null : motive .null) (bool : ∀ b, motive (.bool b))
    (int : ∀ x, motive (.int x)) (float : ∀ x, motive (.float x))
    (string : ∀ s, motive (.string s))
    (list : ∀ items, (∀ item ∈ items, motive item) → motive (.list items))
    (map : ∀ fields : Row, (∀ field ∈ fields, motive field.2) → motive (.map fields))
    (v : Value) : motive v := by
  refine @Value.rec motive (fun items => ∀ item ∈ items, motive item)
    (fun fields => ∀ field ∈ fields, motive field.2) (fun field => motive field.2)
    null bool int float string list map ?_ ?_ ?_ ?_ ?_ v
  · simp
  · intro item items hitem hitems
    exact List.forall_mem_cons.mpr ⟨hitem, hitems⟩
  · simp
  · intro field fields hfield hfields
    exact List.forall_mem_cons.mpr ⟨hfield, hfields⟩
  · intro name v hv
    exact hv

theorem toPlainFields_eq_map (fields : List (String × Value)) :
    toPlainFields fields = fields.map fun field => (field.1, field.2.toPlain) := by
  induction fields with
  | nil => rfl
  | cons field fields ih => rw [toPlainFields, ih, List.map_cons]

theorem toPlainItems_eq_map (items : List Value) : toPlainItems items = items.map toPlain := by
  induction items with
  | nil => rfl
  | cons item items ih => rw [toPlainItems, ih, List.map_cons]

theorem ofPlainItems_eq_map (items : List Plain) : ofPlainItems items = items.map ofPlain := by
  induction items with
  | nil => rfl
  | cons item items ih => rw [ofPlainItems, ih, List.map_cons]

theorem ofPlainFields_eq_map (fields : List (String × Plain)) :
    ofPlainFields fields = fields.map fun field => (field.1, ofPlain field.2) := by
  induction fields with
  | nil => rfl
  | cons field fields ih => rw [ofPlainFields, ih, List.map_cons]

theorem equalItems_iff {as bs : List Value} :
    equalItems as bs = true ↔ List.Forall₂ (fun a b => equal a b = true) as bs := by
  induction as generalizing bs with
  | nil => cases bs <;> simp [equalItems]
  | cons a as ih => cases bs <;> simp [equalItems, ih]

theorem equalFields_iff {as bs : List (String × Value)} :
    equalFields as bs = true ↔
      ∀ field ∈ as, ∃ b, Record.get? bs field.1 = some b ∧ equal field.2 b = true := by
  induction as with
  | nil => simp [equalFields]
  | cons field as ih =>
    rw [equalFields, Bool.and_eq_true, ih, List.forall_mem_cons]
    cases Record.get? bs field.1 <;> simp

mutual
def parts : Value → List Value
  | .list items => .list items :: itemParts items
  | .map fields => .map fields :: fieldParts fields
  | .null => [.null]
  | .bool b => [.bool b]
  | .int x => [.int x]
  | .float x => [.float x]
  | .string s => [.string s]

def itemParts : List Value → List Value
  | [] => []
  | item :: items => parts item ++ itemParts items

def fieldParts : List (String × Value) → List Value
  | [] => []
  | (_, item) :: fields => parts item ++ fieldParts fields
end

/-- Whether a property holds of a value and of all values inside it. -/
def All (p : Value → Prop) (v : Value) : Prop := ∀ part ∈ v.parts, p part

instance (p : Value → Prop) [DecidablePred p] (v : Value) : Decidable (v.All p) :=
  inferInstanceAs (Decidable (∀ part ∈ v.parts, p part))

section
variable {p : Value → Prop}

theorem itemParts_eq_flatMap (items : List Value) : itemParts items = items.flatMap parts := by
  induction items with
  | nil => rfl
  | cons item items ih => rw [itemParts, ih, List.flatMap_cons]

theorem fieldParts_eq_flatMap (fields : List (String × Value)) :
    fieldParts fields = fields.flatMap fun field => field.2.parts := by
  induction fields with
  | nil => rfl
  | cons field fields ih => rw [fieldParts, ih, List.flatMap_cons]

theorem all_list_iff {items : List Value} :
    (Value.list items).All p ↔ p (.list items) ∧ ∀ item ∈ items, item.All p := by
  unfold All
  rw [parts, itemParts_eq_flatMap]
  simp only [List.forall_mem_cons, List.forall_mem_flatMap]

theorem all_map_iff {fields : Row} :
    (Value.map fields).All p ↔ p (.map fields) ∧ ∀ field ∈ fields, field.2.All p := by
  unfold All
  rw [parts, fieldParts_eq_flatMap]
  simp only [List.forall_mem_cons, List.forall_mem_flatMap]

theorem All.self {v : Value} (h : v.All p) : p v := by
  apply h
  cases v <;> exact List.mem_cons_self

theorem All.get? {fields : Row} (h : (Value.map fields).All p) {name : String} {v : Value}
    (hv : Record.get? fields name = some v) : v.All p :=
  (all_map_iff.mp h).2 _ (Record.mem_of_get? hv)

theorem All.descend? {v w : Value} {names : List String} (h : v.All p)
    (hw : v.descend? names = some w) : w.All p := by
  induction names generalizing v with
  | nil =>
    rw [Value.descend?] at hw
    exact Option.some.inj hw ▸ h
  | cons name names ih =>
    cases v with
    | map fields =>
      rw [Value.descend?] at hw
      cases hget : Record.get? fields name with
      | none =>
        rw [hget] at hw
        cases hw
      | some found =>
        rw [hget] at hw
        exact ih (h.get? hget) hw
    | _ => cases hw

end

/-- Whether a property holds of the number that a value is, if it is one. -/
def NumberIs (q : Float → Bool) (v : Value) : Prop := v.number?.all q = true

instance (q : Float → Bool) : DecidablePred (NumberIs q) := fun v =>
  inferInstanceAs (Decidable (v.number?.all q = true))

mutual
def Proper : Value → Prop
  | .list items => ProperItems items
  | .map fields => Record.Proper fields ∧ ProperFields fields
  | _ => True

def ProperItems : List Value → Prop
  | [] => True
  | item :: items => Proper item ∧ ProperItems items

def ProperFields : List (String × Value) → Prop
  | [] => True
  | (_, item) :: fields => Proper item ∧ ProperFields fields
end

mutual
def decideProper : (v : Value) → Decidable v.Proper
  | .list items => decideProperItems items
  | .map fields =>
    have := decideProperFields fields
    inferInstanceAs (Decidable (Record.Proper fields ∧ ProperFields fields))
  | .null | .bool _ | .int _ | .float _ | .string _ => .isTrue trivial

def decideProperItems : (items : List Value) → Decidable (ProperItems items)
  | [] => .isTrue trivial
  | item :: items =>
    have := decideProper item
    have := decideProperItems items
    inferInstanceAs (Decidable (Proper item ∧ ProperItems items))

def decideProperFields : (fields : List (String × Value)) → Decidable (ProperFields fields)
  | [] => .isTrue trivial
  | (_, item) :: fields =>
    have := decideProper item
    have := decideProperFields fields
    inferInstanceAs (Decidable (Proper item ∧ ProperFields fields))
end

instance (v : Value) : Decidable v.Proper := decideProper v

theorem properItems_iff {items : List Value} : ProperItems items ↔ ∀ item ∈ items, item.Proper := by
  induction items with
  | nil => simp [ProperItems]
  | cons item items ih => rw [ProperItems, ih, List.forall_mem_cons]

theorem properFields_iff {fields : List (String × Value)} :
    ProperFields fields ↔ ∀ field ∈ fields, field.2.Proper := by
  induction fields with
  | nil => simp [ProperFields]
  | cons field fields ih => rw [ProperFields, ih, List.forall_mem_cons]

theorem proper_list_iff {items : List Value} :
    (Value.list items).Proper ↔ ∀ item ∈ items, item.Proper := by
  rw [Proper, properItems_iff]

theorem proper_map_iff {fields : Row} :
    (Value.map fields).Proper ↔ Record.Proper fields ∧ ∀ field ∈ fields, field.2.Proper := by
  rw [Proper, properFields_iff]

/-- Whether a value is no map or one that is a proper record. -/
def ProperRecord : Value → Prop
  | .map fields => Record.Proper fields
  | _ => True

theorem proper_iff_all {v : Value} : v.Proper ↔ v.All ProperRecord := by
  induction v using induction with
  | list items ih =>
    rw [proper_list_iff, all_list_iff]
    simp only [ProperRecord, true_and]
    exact forall₂_congr ih
  | map fields ih =>
    rw [proper_map_iff, all_map_iff]
    exact and_congr_right fun _ => forall₂_congr ih
  | _ => exact ⟨fun _ => List.forall_mem_singleton.mpr trivial, fun _ => trivial⟩

theorem Proper.get? {fields : Row} (h : (Value.map fields).Proper) {name : String} {v : Value}
    (hv : Record.get? fields name = some v) : v.Proper :=
  proper_iff_all.mpr ((proper_iff_all.mp h).get? hv)

def DistinctNames : Value → Prop
  | .map fields => (Record.names fields).Nodup
  | _ => True

instance : DecidablePred DistinctNames := fun v =>
  match v with
  | .map fields => inferInstanceAs (Decidable (Record.names fields).Nodup)
  | .null | .bool _ | .int _ | .float _ | .string _ | .list _ => .isTrue trivial

theorem Proper.distinctNames {v : Value} (h : v.Proper) : v.All DistinctNames := by
  intro part hpart
  have hrecord := proper_iff_all.mp h part hpart
  cases part with
  | map fields => exact hrecord.nodup
  | _ => exact trivial

end TableQuery.Value

namespace TableQuery

/-- Whether a property holds of a row and of all values inside it. -/
def Row.All (p : Value → Prop) (row : Row) : Prop := (Value.map row).All p

instance (p : Value → Prop) [DecidablePred p] (row : Row) : Decidable (row.All p) :=
  inferInstanceAs (Decidable ((Value.map row).All p))

theorem Row.All.resolve? {p : Value → Prop} {row : Row} (h : row.All p) {path : String} {v : Value}
    (hv : row.resolve? path = some v) : v.All p := Value.All.descend? h hv

theorem Row.All.lookup {p : Value → Prop} {row : Row} (h : row.All p) (hnull : p .null)
    (path : String) : (row.lookup path).All p := by
  unfold Row.lookup
  cases hv : row.resolve? path with
  | none => exact List.forall_mem_singleton.mpr hnull
  | some v => exact h.resolve? hv

def Row.Proper (row : Row) : Prop := (Value.map row).Proper

instance (row : Row) : Decidable row.Proper := Value.decideProper (.map row)

theorem Row.proper_ofList {fields : List (String × Value)} (h : ∀ field ∈ fields, field.2.Proper) :
    Row.Proper (Record.ofList fields) :=
  Value.proper_map_iff.mpr ⟨Record.proper_ofList fields, Record.forall_mem_ofList h⟩

theorem Row.Proper.lookup {row : Row} (h : row.Proper) (path : String) :
    (row.lookup path).Proper := by
  have hall : row.All Value.ProperRecord := Value.proper_iff_all.mp h
  exact Value.proper_iff_all.mpr (hall.lookup trivial path)

theorem Row.Proper.column {row : Row} (h : row.Proper) (name : String) :
    (row.column name).Proper := by
  unfold Row.column
  cases hv : Record.get? row name with
  | none => exact h.lookup name
  | some v => exact Value.Proper.get? h hv

end TableQuery
