import Mathlib.Data.List.Nodup
import TableQuery.Proofs.Rows.ColumnValues
import TableQuery.Proofs.Value.Equality

/-! # First occurrences

The elements that are kept as the first of their keys have pairwise different keys. So the rows
that are left of a table without repetition differ in their keys, and the groups of a table
differ in the values of their group fields.
-/
namespace TableQuery.Rows
variable {α : Type}

theorem keepFirst_sublist (seen : List String) (entries : List (String × α)) :
    (keepFirst seen entries).Sublist entries := by
  induction entries generalizing seen with
  | nil => exact List.Sublist.refl _
  | cons entry entries ih =>
    rw [keepFirst]
    split
    · exact (ih seen).cons entry
    · exact (ih (entry.1 :: seen)).cons_cons entry

theorem pairwise_keepFirst (seen : List String) (entries : List (String × α)) :
    (∀ entry ∈ keepFirst seen entries, entry.1 ∉ seen) ∧
      (keepFirst seen entries).Pairwise fun a b => a.1 ≠ b.1 := by
  induction entries generalizing seen with
  | nil => exact ⟨by simp [keepFirst], List.Pairwise.nil⟩
  | cons entry entries ih =>
    rw [keepFirst]
    split
    · exact ih seen
    · next hnew =>
      obtain ⟨hseen, hpairwise⟩ := ih (entry.1 :: seen)
      constructor
      · intro other hother
        rcases List.mem_cons.mp hother with rfl | hother
        · simpa using hnew
        · exact fun hmem => hseen other hother (List.mem_cons_of_mem _ hmem)
      · refine List.pairwise_cons.mpr ⟨fun other hother heq => ?_, hpairwise⟩
        exact hseen other hother (heq ▸ List.mem_cons_self)

theorem exists_mem_keepFirst (key : α → String) {rows : List α} {row : α} (hrow : row ∈ rows)
    {seen : List String} (hnew : key row ∉ seen) :
    ∃ first, (key first, first) ∈ keepFirst seen (rows.map fun row => (key row, row)) ∧
      rows.find? (fun other => key other == key row) = some first := by
  induction rows generalizing seen with
  | nil => cases hrow
  | cons other rows ih =>
    rw [List.map_cons, keepFirst]
    by_cases hkey : key other = key row
    · have hnotSeen : ¬ seen.contains (key other) = true := by simpa [hkey] using hnew
      refine ⟨other, ?_, List.find?_cons_of_pos (beq_iff_eq.mpr hkey)⟩
      rw [if_neg hnotSeen]
      exact List.mem_cons_self
    · have htail : row ∈ rows := by
        rcases List.mem_cons.mp hrow with rfl | htail
        · exact absurd rfl hkey
        · exact htail
      have hskip (bs : List α) : (other :: bs).find? (fun other => key other == key row) =
          bs.find? (fun other => key other == key row) :=
        List.find?_cons_of_neg (by simpa using hkey)
      rw [hskip]
      split
      · exact ih htail hnew
      · have hnew' : key row ∉ key other :: seen := by
          simpa [hnew] using Ne.symm hkey
        obtain ⟨first, hfirst, hfind⟩ := ih htail hnew'
        exact ⟨first, List.mem_cons_of_mem _ hfirst, hfind⟩

def firstsBy (key : α → String) (rows : List α) : List α :=
  (keepFirst [] (rows.map fun row => (key row, row))).map (·.2)

def sharing (key : α → String) (rows : List α) (row : α) : List α :=
  rows.filter fun other => key other == key row

section
variable {key : α → String} {rows : List α} {row : α}

theorem keepFirst_eq_map : keepFirst [] (rows.map fun row => (key row, row)) =
    (firstsBy key rows).map fun row => (key row, row) := by
  unfold firstsBy
  rw [List.map_map]
  refine (List.map_id _).symm.trans (List.map_congr_left fun entry hentry => ?_)
  obtain ⟨row, -, rfl⟩ := List.mem_map.mp ((keepFirst_sublist _ _).subset hentry)
  rfl

theorem firstsBy_sublist : (firstsBy key rows).Sublist rows := by
  have h := (keepFirst_sublist [] (rows.map fun row => (key row, row))).map (·.2)
  rwa [List.map_map, Function.comp_def, List.map_id'] at h

theorem pairwise_firstsBy : (firstsBy key rows).Pairwise fun a b => key a ≠ key b := by
  have h := (pairwise_keepFirst [] (rows.map fun row => (key row, row))).2
  rwa [keepFirst_eq_map, List.pairwise_map] at h

theorem exists_mem_firstsBy (key : α → String) (hrow : row ∈ rows) :
    ∃ first ∈ firstsBy key rows, rows.find? (fun other => key other == key row) = some first := by
  obtain ⟨first, hfirst, hfind⟩ := exists_mem_keepFirst key hrow List.not_mem_nil
  exact ⟨first, List.mem_map_of_mem (f := (·.2)) hfirst, hfind⟩

theorem length_firstsBy (key : α → String) (rows : List α) :
    (firstsBy key rows).length = (rows.map key).dedup.length := by
  have hkeys : ((firstsBy key rows).map key).Nodup := List.pairwise_map.mpr pairwise_firstsBy
  have hperm : ((firstsBy key rows).map key).Perm (rows.map key).dedup := by
    refine (List.perm_ext_iff_of_nodup hkeys (List.nodup_dedup _)).mpr fun k => ?_
    rw [List.mem_dedup, List.mem_map, List.mem_map]
    constructor
    · rintro ⟨row, hrow, rfl⟩
      exact ⟨row, firstsBy_sublist.subset hrow, rfl⟩
    · rintro ⟨row, hrow, rfl⟩
      obtain ⟨first, hfirst, hfind⟩ := exists_mem_firstsBy key hrow
      have hkey := List.find?_some (p := fun other => key other == key row) hfind
      exact ⟨first, hfirst, beq_iff_eq.mp hkey⟩
  rw [← hperm.length_eq, List.length_map]

theorem perm_flatMap_filter {keys : List String} (hkeys : keys.Nodup)
    (hrows : ∀ row ∈ rows, key row ∈ keys) :
    (keys.flatMap fun k => rows.filter fun row => key row == k).Perm rows := by
  induction keys generalizing rows with
  | nil =>
    rw [List.eq_nil_iff_forall_not_mem.mpr fun row hrow => List.not_mem_nil (hrows row hrow)]
    exact List.Perm.nil
  | cons k keys ih =>
    obtain ⟨hnew, hkeys⟩ := List.nodup_cons.mp hkeys
    have hrest : (keys.flatMap fun k' => rows.filter fun row => key row == k').Perm
        (rows.filter fun row => !(key row == k)) := by
      have hothers : ∀ row ∈ rows.filter fun row => !(key row == k), key row ∈ keys := by
        intro row hrow
        obtain ⟨hrow, hother⟩ := List.mem_filter.mp hrow
        have hne : key row ≠ k := by simpa using hother
        exact (List.mem_cons.mp (hrows row hrow)).resolve_left hne
      refine List.Perm.trans (List.Perm.of_eq ?_) (ih hkeys hothers)
      refine List.flatMap_congr fun k' hk' => ?_
      rw [List.filter_filter]
      refine List.filter_congr fun row _ => ?_
      by_cases hkey : key row = k'
      · have hother : k' ≠ k := by
          rintro rfl
          exact hnew hk'
        simp [hkey, hother]
      · simp [hkey]
    rw [List.flatMap_cons]
    exact (hrest.append_left _).trans (List.filter_append_perm _ rows)

theorem perm_flatMap_sharing : ((firstsBy key rows).flatMap (sharing key rows)).Perm rows := by
  have hkeys : ((firstsBy key rows).map key).Nodup := List.pairwise_map.mpr pairwise_firstsBy
  have hrows : ∀ row ∈ rows, key row ∈ (firstsBy key rows).map key := by
    intro row hrow
    obtain ⟨first, hfirst, hfind⟩ := exists_mem_firstsBy key hrow
    have hkey := List.find?_some (p := fun other => key other == key row) hfind
    exact List.mem_map.mpr ⟨first, hfirst, beq_iff_eq.mp hkey⟩
  have h := perm_flatMap_filter hkeys hrows
  rwa [List.flatMap_map] at h

end

theorem pairwise_distinct (s : Selection) (rows : List Row) :
    (distinct s rows).Pairwise fun a b => distinctKey s a ≠ distinctKey s b := pairwise_firstsBy

theorem distinct_sublist (s : Selection) (rows : List Row) : (distinct s rows).Sublist rows :=
  firstsBy_sublist

theorem mem_of_mem_distinct {s : Selection} {rows : List Row} {row : Row}
    (h : row ∈ distinct s rows) : row ∈ rows := firstsBy_sublist.subset h

theorem project_eq_map (s : Selection) (rows : List Row) :
    project s rows = rows.map fun row =>
      Record.ofList (s.columns.map fun column => (column, s.valueOf row column)) := by
  refine List.map_congr_left fun row _ => ?_
  unfold Record.ofList
  rw [List.foldl_map]

theorem names_callValues (calls : List (String × Call)) (members : List Row) :
    (callValues calls members).map (·.1) = calls.map (·.1) := by
  unfold callValues
  rw [List.map_map]
  rfl

/-- The row of a group holds the value of each group field, unless a call has its name. -/
theorem get?_ofMembers {fields : List String} {calls : List (String × Call)} {field : String}
    (hfield : field ∈ fields) (hcalls : field ∉ calls.map (·.1)) (hproto : field ≠ "__proto__")
    (first : Row) (members : List Row) :
    Record.get? (Group.ofMembers fields calls first members).row field =
      some (first.lookup field) := by
  have hvalues : Record.get? (callValues calls members).reverse field = none := by
    have hnames : Record.names (callValues calls members).reverse = (calls.map (·.1)).reverse :=
      List.map_reverse.trans (congrArg List.reverse (names_callValues calls members))
    rw [Record.get?_eq_none_iff, hnames, List.mem_reverse]
    exact hcalls
  unfold Group.ofMembers
  dsimp only
  rw [Record.get?_ofList, if_neg hproto, List.reverse_append, Record.get?_append, hvalues,
    Option.none_or, ← List.map_reverse, Record.get?_of_names, if_pos (List.mem_reverse.mpr hfield)]

section
variable {fields : List String} {calls : List (String × Call)} {column : String} {call : Call}

theorem lookup_callValues (hcalls : (calls.map (·.1)).Nodup) (hcall : (column, call) ∈ calls)
    (members : List Row) :
    (callValues calls members).lookup column = some (summarize call members) := by
  have hnames : ((callValues calls members).map (·.1)).Nodup := by
    rwa [names_callValues]
  exact Record.get?_of_mem hnames (List.mem_map_of_mem (f := fun entry : String × Call =>
    (entry.1, summarize entry.2 members)) hcall)

/-- The row of a group holds the value of each call, also where a group field has its name. -/
theorem get?_ofMembers_call (hcalls : (calls.map (·.1)).Nodup) (hcall : (column, call) ∈ calls)
    (hproto : column ≠ "__proto__") (first : Row) (members : List Row) :
    Record.get? (Group.ofMembers fields calls first members).row column =
      some (summarize call members) := by
  have hnames : (Record.names (callValues calls members).reverse).Nodup := by
    have hreverse : Record.names (callValues calls members).reverse = (calls.map (·.1)).reverse :=
      List.map_reverse.trans (congrArg List.reverse (names_callValues calls members))
    rw [hreverse]
    exact List.nodup_reverse.mpr hcalls
  have hlast := Record.get?_of_mem hnames (List.mem_reverse.mpr (List.mem_map_of_mem
    (f := fun entry : String × Call => (entry.1, summarize entry.2 members)) hcall))
  unfold Group.ofMembers
  dsimp only
  rw [Record.get?_ofList, if_neg hproto, List.reverse_append, Record.get?_append]
  exact congrArg (Option.or · _) hlast

end

theorem get?_ofMembers_eq_none {fields : List String} {calls : List (String × Call)}
    {name : String} (hfields : name ∉ fields) (hcalls : name ∉ calls.map (·.1))
    (first : Row) (members : List Row) :
    Record.get? (Group.ofMembers fields calls first members).row name = none := by
  unfold Group.ofMembers
  dsimp only
  rw [Record.get?_ofList]
  split
  · rfl
  · rw [Record.get?_eq_none_iff]
    unfold Record.names callValues
    simp only [List.map_reverse, List.mem_reverse, List.map_append, List.map_map, List.mem_append]
    rintro (hmem | hmem)
    · exact hfields (by simpa using hmem)
    · exact hcalls hmem

/-- What tells rows with the same names apart: the values under some of them. -/
def heldKey (names : List String) (row : Row) : String :=
  Value.tupleKey (names.map fun name => (Record.get? row name).getD .null)

/-- A group holds the values that tell it from others. The field `__proto__`, which it does not
hold, is null in all rows. -/
theorem heldKey_ofMembers {fields : List String} {calls : List (String × Call)}
    (hfields : ∀ field ∈ fields, field ∉ calls.map (·.1)) {first : Row} (hfirst : first.Proper)
    (members : List Row) :
    heldKey fields (Group.ofMembers fields calls first members).row = groupKey fields first := by
  unfold heldKey groupKey groupValues
  congr 1
  refine List.map_congr_left fun field hfield => ?_
  by_cases hproto : field = "__proto__"
  · rw [hproto, hfirst.lookup_proto]
    unfold Group.ofMembers
    dsimp only
    rw [Record.get?_ofList, if_pos rfl, Option.getD_none]
  · rw [get?_ofMembers hfield (hfields field hfield) hproto, Option.getD_some]

theorem proper_summarize (call : Call) (members : List Row) : (summarize call members).Proper := by
  have hsample (function : Aggregate) (xs : List Float) : (ofSample function xs).Proper := by
    cases xs with
    | nil => exact trivial
    | cons x xs => cases function <;> exact trivial
  unfold summarize
  split
  · split <;> exact trivial
  · exact hsample _ _

theorem proper_ofMembers {fields : List String} {calls : List (String × Call)} {first : Row}
    (hfirst : first.Proper) (members : List Row) :
    (Group.ofMembers fields calls first members).row.Proper := by
  refine Row.proper_ofList fun field hfield => ?_
  rcases List.mem_append.mp hfield with hshared | hcall
  · obtain ⟨name, -, rfl⟩ := List.mem_map.mp hshared
    exact hfirst.lookup name
  · obtain ⟨entry, -, rfl⟩ := List.mem_map.mp hcall
    exact proper_summarize entry.2 members

theorem groups_eq_map (fields : List String) (calls : List (String × Call)) (rows : List Row) :
    groups fields calls rows = (firstsBy (groupKey fields) rows).map fun first =>
      Group.ofMembers fields calls first (sharing (groupKey fields) rows first) := by
  unfold groups
  dsimp only
  rw [keepFirst_eq_map, List.map_map]
  refine List.map_congr_left fun first _ => ?_
  have hmembers : ((rows.map fun row => (groupKey fields row, row)).filter fun entry =>
      entry.1 == groupKey fields first).map (·.2) = sharing (groupKey fields) rows first := by
    rw [List.filter_map, List.map_map]
    exact List.map_id' _
  exact congrArg (Group.ofMembers fields calls first) hmembers

theorem mem_groups {fields : List String} {calls : List (String × Call)} {rows : List Row}
    {g : Group} (h : g ∈ groups fields calls rows) :
    ∃ first ∈ rows, ∃ members, g = Group.ofMembers fields calls first members := by
  rw [groups_eq_map] at h
  obtain ⟨first, hfirst, rfl⟩ := List.mem_map.mp h
  exact ⟨first, firstsBy_sublist.subset hfirst, _, rfl⟩

theorem pairwise_groups {fields : List String} {calls : List (String × Call)}
    (hfields : ∀ field ∈ fields, field ∉ calls.map (·.1)) {rows : List Row}
    (hrows : ∀ row ∈ rows, row.Proper) :
    (groups fields calls rows).Pairwise fun g h => heldKey fields g.row ≠ heldKey fields h.row := by
  rw [groups_eq_map]
  refine List.pairwise_map.mpr (pairwise_firstsBy.imp_of_mem fun ha hb hne => ?_)
  have hmem := firstsBy_sublist.subset ha
  have hmem' := firstsBy_sublist.subset hb
  rwa [heldKey_ofMembers hfields (hrows _ hmem), heldKey_ofMembers hfields (hrows _ hmem')]

end TableQuery.Rows
