import TableQuery.Proofs.Query.CallColumns
import TableQuery.Proofs.Query.SelectedItem
import TableQuery.Proofs.Rows.GroupTotals
import TableQuery.Proofs.Session.Outcome
import TableQuery.Proofs.Session.ShownRows
import TableQuery.Proofs.Sorting.Images

/-! # Ordering by a call

A selected call may be ordered by in two ways: by the name of its column and by the call itself,
which is looked up under its label. Where no two columns have one name both lead to columns that
hold the call, and so to the same order and the same answer.
-/
namespace TableQuery

namespace Rows
variable {α : Type} {read : α → String → Value} {front back : List SortKey} {key key' : SortKey}

/-- A key may be exchanged for one that reads the same values in the same direction. -/
theorem order_exchange (hdirection : key.direction = key'.direction) {a b : α}
    (ha : read a key.column = read a key'.column) (hb : read b key.column = read b key'.column) :
    order (front ++ key :: back) read a b = order (front ++ key' :: back) read a b := by
  induction front with
  | nil => rw [List.nil_append, List.nil_append, order, order, hdirection, ha, hb]
  | cons first front ih => rw [List.cons_append, List.cons_append, order, order, ih]

theorem sort_exchange (hdirection : key.direction = key'.direction) {rows : List α}
    (h : ∀ row ∈ rows, read row key.column = read row key'.column) :
    sort (front ++ key :: back) read rows = sort (front ++ key' :: back) read rows := by
  unfold sort
  rw [if_neg (by simp), if_neg (by simp)]
  apply Sorting.sort_congr
  intro a ha b hb
  exact order_exchange hdirection (h a ha) (h b hb)

end Rows

namespace Entries
variable {α : Type} {entries : List (String × α)} {key : String} {a : α}

theorem has_of_mem (h : (key, a) ∈ entries) : has entries key = true :=
  Record.has_iff.mpr (List.mem_map_of_mem h)

theorem exists_mem_of_has (h : has entries key = true) : ∃ a, (key, a) ∈ entries := by
  obtain ⟨entry, hentry, rfl⟩ := List.mem_map.mp (Record.has_iff.mp h)
  exact ⟨entry.2, hentry⟩

end Entries

namespace Statement
variable {s : Statement} {column : String} {call : Call}

theorem orderColumn_of_mem (hcall : (column, call) ∈ s.selection.calls) :
    s.orderColumn column = column := if_pos (Entries.has_of_mem hcall)

theorem mem_calls_orderColumn (hs : s.selection.Coherent)
    (hcall : (column, call) ∈ s.selection.calls) :
    (s.orderColumn call.label, call) ∈ s.selection.calls := by
  unfold orderColumn
  split
  · next hlabel =>
    obtain ⟨other, hother⟩ := Entries.exists_mem_of_has hlabel
    obtain rfl := hs.eq_of_label hother
    exact hother
  · next hlabel =>
    split
    · next name source hfind =>
      have hfound := List.find?_some hfind
      rw [Bool.and_eq_true, beq_iff_eq] at hfound
      obtain ⟨rfl, hname⟩ := hfound
      obtain ⟨other, hother⟩ := Entries.exists_mem_of_has hname
      obtain rfl := hs.eq_of_alias hother (List.mem_of_find?_eq_some hfind)
      exact hother
    · next hnone =>
      rcases hs.labelled hcall with rfl | halias
      · exact hcall
      · have hhas := Entries.has_of_mem hcall
        have hrejected := List.find?_eq_none.mp hnone _ halias
        simp [hhas] at hrejected

/-- Every group has the same value in the column that a label means as in any column of its
call. -/
theorem groupValue_orderColumn (hs : s.selection.Coherent)
    (hkeys : (s.selection.calls.map (·.1)).Nodup) (hcall : (column, call) ∈ s.selection.calls)
    {rows : List Row} {g : Rows.Group} (hg : g ∈ s.groups rows) :
    s.selection.groupValue g (s.orderColumn call.label) =
      s.selection.groupValue g (s.orderColumn column) := by
  obtain ⟨first, -, members, rfl⟩ := mem_groups hg
  rw [orderColumn_of_mem hcall, Rows.groupValue_ofMembers hkeys hcall,
    Rows.groupValue_ofMembers hkeys (mem_calls_orderColumn hs hcall)]

def orderedBy (s : Statement) (order : List SortKey) : Statement := { s with order }

theorem ordered_orderedBy {α : Type} (order : List SortKey) (read : α → String → Value)
    (rows : List α) : (s.orderedBy order).ordered read rows =
      Rows.sort (order.map fun key => { key with column := s.orderColumn key.column }) read rows :=
  rfl

theorem found_orderedBy_label (hs : s.selection.Coherent)
    (hkeys : (s.selection.calls.map (·.1)).Nodup) (hcall : (column, call) ∈ s.selection.calls)
    (front back : List SortKey) (direction : Direction) (rows : List Row) :
    (s.orderedBy (front ++ ⟨call.label, direction⟩ :: back)).found rows =
      (s.orderedBy (front ++ ⟨column, direction⟩ :: back)).found rows := by
  have hgrouped (order : List SortKey) : (s.orderedBy order).isGrouped = true := by
    have hcalls : s.selection.calls ≠ [] := List.ne_nil_of_mem hcall
    simp [isGrouped, orderedBy, hcalls]
  have hordered : (s.orderedBy (front ++ ⟨call.label, direction⟩ :: back)).ordered
        s.selection.groupValue (s.groups (s.filtered rows)) =
      (s.orderedBy (front ++ ⟨column, direction⟩ :: back)).ordered
        s.selection.groupValue (s.groups (s.filtered rows)) := by
    rw [ordered_orderedBy, ordered_orderedBy, List.map_append, List.map_append, List.map_cons,
      List.map_cons]
    apply Rows.sort_exchange
    · rfl
    · intro g hg
      exact groupValue_orderColumn hs hkeys hcall hg
  unfold found
  dsimp only
  rw [if_pos (hgrouped _), if_pos (hgrouped _)]
  exact congrArg (List.map Rows.Group.row) hordered

theorem answer_orderedBy_label (hs : s.selection.Coherent)
    (hkeys : (s.selection.calls.map (·.1)).Nodup) (hcall : (column, call) ∈ s.selection.calls)
    (front back : List SortKey) (direction : Direction) (limit : Float) (rows : List Row) :
    (s.orderedBy (front ++ ⟨call.label, direction⟩ :: back)).answer limit rows =
      (s.orderedBy (front ++ ⟨column, direction⟩ :: back)).answer limit rows := by
  have hfound := found_orderedBy_label hs hkeys hcall front back direction rows
  unfold answer
  rw [hfound]
  rfl

end Statement

namespace Engine

/-- Where no two columns have one name, a query that is ordered by a call and a query that is
ordered by a column of this call, which are read alike otherwise, are answered alike. -/
theorem execute_orderedBy_label {e : Engine} {p : Provider} {query query' name : String}
    {limit : Option Float} {j j' : Journal} {s : Statement} {column : String} {call : Call}
    {direction : Direction} {front back : List SortKey}
    (hnames : s.selection.columns.Nodup) (hcall : (column, call) ∈ s.selection.calls)
    (hread : Statement.read query =
      .ok (s.orderedBy (front ++ ⟨call.label, direction⟩ :: back)))
    (hread' : Statement.read query' =
      .ok (s.orderedBy (front ++ ⟨column, direction⟩ :: back)))
    (hshown : ShownAlike name j j') :
    ((e.execute p query limit name).run j).1 = ((e.execute p query' limit name).run j').1 := by
  obtain ⟨select, -, -, -, hselect, -⟩ := Statement.cuts_of_read hread
  have hs : s.selection.Coherent := Selection.coherent_of_read hselect hnames
  have hkeys := Selection.nodup_calls_of_read hselect
  refine execute_congr hread hread' hshown rfl fun rows _ => ⟨rfl, ?_⟩
  exact (Statement.answer_orderedBy_label hs hkeys hcall front back direction _ rows).symm

/-- A call with two aliases, ordered by the call and by its second alias. -/
theorem execute_orderedBy_label_count :
    Response.overRows [[("g", .string "x")], [("g", .string "y")], [("g", .string "y")]]
      "SELECT g, COUNT(*) AS b, count(*) AS a FROM t GROUP BY g ORDER BY Count( * ) DESC, g" =
    Response.overRows [[("g", .string "x")], [("g", .string "y")], [("g", .string "y")]]
      "SELECT g, COUNT(*) AS b, count(*) AS a FROM t GROUP BY g ORDER BY a DESC, g" := by
  let count : Call := ⟨.count, "*"⟩
  let selection : Selection :=
    ⟨["g", "b", "a"], false, [("b", count), ("a", count)], [("b", "COUNT(*)"), ("a", "COUNT(*)")]⟩
  let s : Statement := ⟨selection, "t", .all, ["g"], [], none⟩
  have hread : Statement.read
      "SELECT g, COUNT(*) AS b, count(*) AS a FROM t GROUP BY g ORDER BY Count( * ) DESC, g" =
      .ok (s.orderedBy ([] ++ ⟨count.label, .descending⟩ :: [⟨"g", .ascending⟩])) :=
    Statement.read_of_agrees
      (t := s.orderedBy [⟨count.label, .descending⟩, ⟨"g", .ascending⟩]) (by decide +kernel)
  have hread' : Statement.read
      "SELECT g, COUNT(*) AS b, count(*) AS a FROM t GROUP BY g ORDER BY a DESC, g" =
      .ok (s.orderedBy ([] ++ ⟨"a", .descending⟩ :: [⟨"g", .ascending⟩])) :=
    Statement.read_of_agrees
      (t := s.orderedBy [⟨"a", .descending⟩, ⟨"g", .ascending⟩]) (by decide +kernel)
  have hcall : ("a", count) ∈ s.selection.calls := by simp [s, selection]
  exact execute_orderedBy_label (by decide) hcall hread hread' (.inl (by decide))

end Engine
end TableQuery
