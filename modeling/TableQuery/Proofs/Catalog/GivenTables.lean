import TableQuery.Catalog.Provider
import TableQuery.Proofs.Data.RecordFields

/-! # Given tables

Plain data is read as a table only where it gives rows, alone or beside a description. The tables
of a catalog are read from the fields of its data, one from each and in order.
-/
namespace TableQuery

/-- What plain data gives a table: rows alone, or rows with a description that may be absent. -/
inductive GivesTable : Plain → Option String → List PlainRow → Prop
  | bare (rows : List PlainRow) : GivesTable (.list (rows.map .map)) none rows
  | described {fields : Record Plain} {description : Option String} {rows : List PlainRow}
      (hrows : Record.get? fields "rows" = some (.list (rows.map .map)))
      (hdescription : Record.get? fields "description" = description.map .string) :
      GivesTable (.map fields) description rows

namespace Catalog

theorem eq_map_of_readRow? {p : Plain} {row : PlainRow} (h : readRow? p = some row) :
    p = .map row := by
  unfold readRow? at h
  split at h
  · split at h
    · exact congrArg Plain.map (Option.some.inj h)
    · cases h
  · cases h

theorem eq_list_of_readRows? {p : Option Plain} {rows : List PlainRow}
    (h : readRows? p = some rows) : p = some (.list (rows.map .map)) := by
  unfold readRows? at h
  split at h
  · next items =>
    congr 2
    induction items generalizing rows with
    | nil =>
      cases Option.some.inj h
      rfl
    | cons item items ih =>
      rw [List.mapM_cons] at h
      obtain ⟨row, hrow, h⟩ := Option.bind_eq_some_iff.mp h
      obtain ⟨others, hothers, h⟩ := Option.bind_eq_some_iff.mp h
      cases Option.some.inj h
      rw [List.map_cons, eq_map_of_readRow? hrow, ih hothers]
  · cases h

theorem gives_of_readTable? {p : Plain} {table : Table} (h : readTable? p = some table) :
    GivesTable p table.description table.rows := by
  unfold readTable? at h
  split at h
  · obtain ⟨rows, hrows, rfl⟩ := Option.map_eq_some_iff.mp h
    cases Option.some.inj (eq_list_of_readRows? hrows)
    exact .bare rows
  · obtain ⟨rows, hrows, h⟩ := Option.bind_eq_some_iff.mp h
    have hgiven := eq_list_of_readRows? hrows
    split at h
    · next habsent =>
      cases Option.some.inj h
      exact .described hgiven habsent
    · next description hpresent =>
      cases Option.some.inj h
      exact .described hgiven hpresent
    · cases h
  · cases h

theorem exists_of_readEntry {name : String} {p : Plain} (h : (readEntry name p).issues = []) :
    ∃ table, readTable? p = some table ∧ (readEntry name p).value = some (name, table) := by
  unfold readEntry at h ⊢
  split
  · next hname =>
    rw [if_pos hname] at h
    cases h
  · next hname =>
    rw [if_neg hname] at h
    cases htable : readTable? p with
    | none =>
      rw [htable] at h
      cases h
    | some table => exact ⟨table, rfl, rfl⟩

/-- The tables of a catalog are read from some fields, in order. -/
def ReadsFrom (c : Catalog) (fields : Record Plain) : Prop :=
  List.Forall₂ (fun field entry => entry.1 = field.1 ∧ readTable? field.2 = some entry.2) fields
    c.tables

theorem readsFrom_of_ofPlain {p : Option Plain} {c : Catalog} (h : ofPlain p = .ok c) :
    ∃ fields : Record Plain, p = some (.map fields) ∧ c.ReadsFrom fields := by
  unfold ofPlain at h
  split at h
  · next fields =>
    dsimp only at h
    split at h
    · next hissues =>
      refine ⟨fields, rfl, ?_⟩
      cases Except.ok.inj h
      have hnone := List.flatMap_eq_nil_iff.mp (List.isEmpty_iff.mp hissues)
      clear h hissues
      unfold ReadsFrom
      induction fields with
      | nil => exact .nil
      | cons field fields ih =>
        obtain ⟨hfirst, hrest⟩ := List.forall_mem_cons.mp hnone
        obtain ⟨table, htable, hvalue⟩ := exists_of_readEntry hfirst
        rw [List.map_cons, List.filterMap_cons_some hvalue]
        exact .cons ⟨rfl, htable⟩ (ih hrest)
    · cases h
  · cases h

variable {fields : Record Plain} {c : Catalog}

theorem ReadsFrom.names_eq (h : c.ReadsFrom fields) :
    Record.names c.tables = Record.names fields := by
  unfold ReadsFrom at h
  unfold Record.names
  generalize c.tables = tables at h
  induction h with
  | nil => rfl
  | cons hentry _ ih => rw [List.map_cons, List.map_cons, hentry.1, ih]

theorem ReadsFrom.find? (h : c.ReadsFrom fields) {name : String} {given : Plain}
    (hgiven : Record.get? fields name = some given) :
    ∃ table, c.find? name = some table ∧ readTable? given = some table := by
  unfold ReadsFrom at h
  unfold Record.get? at hgiven
  unfold Catalog.find?
  generalize c.tables = tables at h ⊢
  induction h with
  | nil => cases hgiven
  | @cons field entry _ _ hentry _ ih =>
    rw [List.lookup_cons] at hgiven ⊢
    rw [hentry.1]
    split at hgiven
    · cases Option.some.inj hgiven
      exact ⟨entry.2, rfl, hentry.2⟩
    · exact ih hgiven

end Catalog
end TableQuery
