import TableQuery.Proofs.Data.OrderedRecords
import TableQuery.Proofs.Number.Extremes
import TableQuery.Proofs.Value.Structure

/-! # Plain data as values

A number without fractional part is its own whole part, with its sign, so settling the kind of a
number loses nothing of it. A record is filled again field by field, in both directions: it comes
out proper, and where it was in order, every field is converted in its place.
-/
namespace TableQuery

namespace Number

theorem isNegative_truncate {x : Float} (h : isNaN x = false) :
    isNegative (truncate x) = isNegative x := by
  have hword : magnitude x ≤ infiniteWord := Nat.not_lt.mp (of_decide_eq_false h)
  unfold truncate
  dsimp only
  split
  · exact isNegative_ofWord _ (Nat.zero_le _)
  split
  · rfl
  · exact isNegative_ofWord _ ((Nat.sub_le _ _).trans hword)

theorem truncate_of_isIntegral {x : Float} (h : isIntegral x = true) : truncate x = x := by
  obtain ⟨hfinite, hmagnitude⟩ := Bool.and_eq_true_iff.mp h
  have hsign := isNegative_truncate (isNaN_of_isFinite hfinite)
  apply signedRank_injective
  rw [signedRank, hsign, beq_iff_eq.mp hmagnitude, signedRank]

end Number

namespace Value

theorem toPlain_ofNumber (x : Float) : (ofNumber x).toPlain = .number x := by
  unfold ofNumber whole
  split
  · next h => rw [toPlain, Number.truncate_of_isIntegral h]
  · rw [toPlain]

theorem ofPlain_map {fields : PlainRow} (h : Record.Ordered fields) :
    ofPlain (.map fields) = .map (fields.map fun field => (field.1, ofPlain field.2)) := by
  rw [ofPlain, ofPlainFields_eq_map, (h.map ofPlain).ofList_eq]

theorem toPlain_map {fields : Row} (h : Record.Ordered fields) :
    toPlain (.map fields) = .map (fields.map fun field => (field.1, field.2.toPlain)) := by
  rw [toPlain, toPlainFields_eq_map, (h.map toPlain).ofList_eq]

theorem proper_ofNumber (x : Float) : (ofNumber x).Proper := by
  unfold ofNumber whole
  split <;> exact trivial

mutual
theorem proper_ofPlain : (p : Plain) → (ofPlain p).Proper
  | .null | .bool _ | .string _ => trivial
  | .number x => proper_ofNumber x
  | .list items => proper_list_iff.mpr (proper_ofPlainItems items)
  | .map fields => proper_map_iff.mpr
      ⟨Record.proper_ofList _, Record.forall_mem_ofList (proper_ofPlainFields fields)⟩

theorem proper_ofPlainItems : (items : List Plain) → ∀ item ∈ ofPlainItems items, item.Proper
  | [] => List.forall_mem_nil _
  | item :: items => List.forall_mem_cons.mpr ⟨proper_ofPlain item, proper_ofPlainItems items⟩

theorem proper_ofPlainFields :
    (fields : List (String × Plain)) → ∀ field ∈ ofPlainFields fields, field.2.Proper
  | [] => List.forall_mem_nil _
  | (_, item) :: fields =>
    List.forall_mem_cons.mpr ⟨proper_ofPlain item, proper_ofPlainFields fields⟩
end

end Value

namespace Row

theorem proper_ofPlain (row : PlainRow) : (ofPlain row).Proper := Value.proper_ofPlain (.map row)

theorem toPlain_eq_map {row : Row} (h : Record.Ordered row) :
    row.toPlain = row.map fun field => (field.1, field.2.toPlain) :=
  Plain.map.inj (Value.toPlain_map h)

theorem names_toPlain {row : Row} (h : Record.Ordered row) :
    Record.names row.toPlain = Record.names row := by
  rw [toPlain_eq_map h]
  exact List.map_map

theorem get?_toPlain {row : Row} (h : Record.Proper row) (name : String) :
    Record.get? row.toPlain name = (Record.get? row name).map Value.toPlain := by
  rw [toPlain, Value.toPlainFields_eq_map, (h.map Value.toPlain).get?_ofList, Record.get?_map]

end Row
end TableQuery
