import TableQuery.Proofs.Data.OrderedRecords
import TableQuery.Proofs.Number.Rank
import TableQuery.Proofs.Rows.Samples
import TableQuery.Proofs.Value.PlainConversion

/-! # Conversion there and back

Both conversions fill every record again, field by field, so what is shown has its records in
order, and plain data comes back as it was exactly where its records are. A value that is made
plain data and a value again may change the kind of its numbers, and is equal to what it was.
-/
namespace TableQuery

/-- Plain data in which every record is in order. -/
inductive Plain.Ordered : Plain → Prop where
  | null : Ordered .null
  | bool (b : Bool) : Ordered (.bool b)
  | number (x : Float) : Ordered (.number x)
  | string (s : String) : Ordered (.string s)
  | list {items : List Plain} (h : ∀ item ∈ items, Ordered item) : Ordered (.list items)
  | map {fields : PlainRow} (hr : Record.Ordered fields)
      (h : ∀ field ∈ fields, Ordered field.2) : Ordered (.map fields)

namespace Plain

/-- Plain data in which the fields of every record have names of their own and stand in order. -/
inductive Arranged : Plain → Prop where
  | null : Arranged .null
  | bool (b : Bool) : Arranged (.bool b)
  | number (x : Float) : Arranged (.number x)
  | string (s : String) : Arranged (.string s)
  | list {items : List Plain} (h : ∀ item ∈ items, Arranged item) : Arranged (.list items)
  | map {fields : PlainRow} (hr : Record.Arranged fields)
      (h : ∀ field ∈ fields, Arranged field.2) : Arranged (.map fields)

/-- Some record in plain data has a field `__proto__`. -/
inductive HoldsProto : Plain → Prop where
  | item {items : List Plain} {item : Plain} (hmem : item ∈ items) (h : HoldsProto item) :
    HoldsProto (.list items)
  | here {fields : PlainRow} (h : "__proto__" ∈ Record.names fields) : HoldsProto (.map fields)
  | field {fields : PlainRow} {field : String × Plain} (hmem : field ∈ fields)
    (h : HoldsProto field.2) : HoldsProto (.map fields)

theorem Ordered.arranged {p : Plain} (h : p.Ordered) : p.Arranged := by
  induction h with
  | null => exact .null
  | bool b => exact .bool b
  | number x => exact .number x
  | string s => exact .string s
  | list _ ih => exact .list ih
  | map hr _ ih => exact .map (Record.ordered_iff.mp hr).1 ih

theorem Ordered.not_holdsProto {p : Plain} (h : p.Ordered) : ¬p.HoldsProto := by
  induction h with
  | null | bool | number | string =>
    intro hproto
    cases hproto
  | list _ ih =>
    rintro (⟨hmem, hitem⟩ | _)
    exact ih _ hmem hitem
  | map hr _ ih =>
    rintro (_ | hhere | ⟨hmem, hfield⟩)
    · exact hr.proper.noProto hhere
    · exact ih _ hmem hfield

theorem Arranged.ordered {p : Plain} (h : p.Arranged) (hproto : ¬p.HoldsProto) : p.Ordered := by
  induction h with
  | null => exact .null
  | bool b => exact .bool b
  | number x => exact .number x
  | string s => exact .string s
  | list _ ih => exact .list fun item hitem => ih item hitem fun h => hproto (.item hitem h)
  | map hr _ ih =>
    exact .map (Record.ordered_iff.mpr ⟨hr, fun h => hproto (.here h)⟩)
      fun field hfield => ih field hfield fun h => hproto (.field hfield h)

end Plain

namespace Value

/-- Whether a value is no map, or one that is in order. -/
def InOrder : Value → Prop
  | .map fields => Record.Ordered fields
  | _ => True

instance : DecidablePred InOrder := fun v =>
  match v with
  | .map fields => inferInstanceAs (Decidable (Record.Ordered fields))
  | .null | .bool _ | .int _ | .float _ | .string _ | .list _ => .isTrue trivial

theorem toPlain_ofPlain {p : Plain} (h : p.Ordered) : (ofPlain p).toPlain = p := by
  induction h with
  | null | bool | string => rfl
  | number x => exact toPlain_ofNumber x
  | list _ ih =>
    rw [ofPlain, toPlain, ofPlainItems_eq_map, toPlainItems_eq_map, List.map_map]
    exact congrArg Plain.list ((List.map_congr_left ih).trans (List.map_id _))
  | @map fields hr _ ih =>
    have hfields : fields.map (fun field => (field.1, (ofPlain field.2).toPlain)) = fields :=
      (List.map_congr_left fun field hfield => congrArg (Prod.mk field.1) (ih field hfield)).trans
        (List.map_id _)
    rw [ofPlain_map hr, toPlain_map (hr.map ofPlain), List.map_map]
    exact congrArg Plain.map hfields

/-- What is shown is in order, as all its records are filled with their fields. -/
theorem ordered_toPlain (v : Value) : v.toPlain.Ordered := by
  induction v using induction with
  | null => exact .null
  | bool b => exact .bool b
  | int x | float x => exact .number x
  | string s => exact .string s
  | list items ih =>
    rw [toPlain, toPlainItems_eq_map]
    exact .list (List.forall_mem_map.mpr ih)
  | map fields ih =>
    rw [toPlain, toPlainFields_eq_map]
    exact .map (Record.ordered_ofList _)
      (Record.forall_mem_ofList (List.forall_mem_map.mpr ih))

theorem toPlain_ofPlain_iff {p : Plain} : (ofPlain p).toPlain = p ↔ p.Ordered :=
  ⟨fun h => h ▸ ordered_toPlain (ofPlain p), toPlain_ofPlain⟩

theorem equal_ofNumber {x : Float} (h : Number.isNaN x = false) :
    equal (ofNumber x) (.int x) = true ∧ equal (ofNumber x) (.float x) = true := by
  have hsame : Number.same x x = true := Number.same_of_rank_eq h h rfl
  unfold ofNumber whole
  split
  · next hwhole =>
    rw [Number.truncate_of_isIntegral hwhole]
    exact ⟨hsame, hsame⟩
  · exact ⟨hsame, hsame⟩

theorem equal_ofPlain_toPlain {v : Value} (hv : v.All InOrder) (h : v.All NotNaN) :
    equal (ofPlain v.toPlain) v = true := by
  induction v using induction with
  | null => rfl
  | bool b => exact beq_self_eq_true b
  | string s => exact beq_self_eq_true s
  | int x => exact (equal_ofNumber (isNaN_of_number? h.self rfl)).1
  | float x => exact (equal_ofNumber (isNaN_of_number? h.self rfl)).2
  | list items ih =>
    rw [all_list_iff] at hv h
    rw [toPlain, ofPlain, equal, toPlainItems_eq_map, ofPlainItems_eq_map, List.map_map,
      equalItems_iff, List.forall₂_map_left_iff, List.forall₂_same]
    exact fun item hitem => ih item hitem (hv.2 item hitem) (h.2 item hitem)
  | map fields ih =>
    rw [all_map_iff] at hv h
    have hordered : Record.Ordered fields := hv.1
    rw [toPlain_map hordered, ofPlain_map (hordered.map toPlain), equal, List.map_map,
      Bool.and_eq_true, beq_iff_eq, List.length_map, equalFields_iff, List.forall_mem_map]
    refine ⟨rfl, fun field hfield => ⟨field.2, ?_, ?_⟩⟩
    · exact Record.get?_of_mem hordered.proper.nodup hfield
    · exact ih field hfield (hv.2 field hfield) (h.2 field hfield)

/-- Plain data in which every record is in order is the same after conversion to a value and back,
with the fields of every record in the same order. A value is equal to what it was after conversion
to plain data and back. -/
theorem plain_roundTrip :
    (∀ p : Plain, p.Ordered → (ofPlain p).toPlain = p) ∧
    ∀ v : Value, v.All InOrder → v.All NotNaN → equal (ofPlain v.toPlain) v = true :=
  ⟨fun _ => toPlain_ofPlain, fun _ => equal_ofPlain_toPlain⟩

/-- Whole numbers among the names of a record, and a float without fractional part. -/
theorem plain_roundTrip_nested :
    let p : Plain := .map (Record.ofList
      [("b", .number (Number.ofNat 2)), ("10", .list [.null]), ("2", .string "")])
    let v : Value :=
      .list [.float (Number.ofNat 2), .map [("2", .int (Number.ofNat 3)), ("a", .null)]]
    p.Ordered ∧ (ofPlain p).toPlain = p ∧
      v.All InOrder ∧ v.All NotNaN ∧ equal (ofPlain v.toPlain) v = true := by
  intro p v
  have hp : p.Ordered := by
    refine .map (Record.ordered_ofList _) (Record.forall_mem_ofList ?_)
    simp only [List.forall_mem_cons]
    exact ⟨.number _, .list (List.forall_mem_singleton.mpr .null), .string _, List.forall_mem_nil _⟩
  have hv : v.All InOrder := by decide +kernel
  have hnumbers : v.All NotNaN := by
    simp [v, All, parts, itemParts, fieldParts, NumberIs, number?, Number.isNaN_ofNat]
  obtain ⟨hplain, hvalue⟩ := plain_roundTrip
  exact ⟨hp, hplain p hp, hv, hnumbers, hvalue v hv hnumbers⟩

end Value
end TableQuery
