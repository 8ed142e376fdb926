import TableQuery.Catalog.Provider
import TableQuery.Proofs.Value.PlainConversion

/-! # Properties of all rows

What holds of the plain rows that a catalog is given, and of every row that lists a table, holds
of all rows of the catalog's provider.
-/
namespace TableQuery

def Provider.All (property : Row → Prop) (p : Provider) : Prop :=
  ∀ table rows, p.rows table = .ok rows → ∀ row ∈ rows, property row

namespace Catalog

def listed (name description : String) : Row :=
  [("table", .string name), ("description", .string description)]

theorem mem_of_rows? {c : Catalog} {name : String} {rows : List Row} {row : Row}
    (h : c.rows? name = some rows) (hrow : row ∈ rows) :
    (∃ entry ∈ c.tables, ∃ source ∈ entry.2.rows, Row.ofPlain source = row) ∨
      ∃ table description, listed table description = row := by
  unfold rows? at h
  cases hfound : c.find? name with
  | some table =>
    rw [hfound] at h
    cases Option.some.inj h
    obtain ⟨source, hsource, heq⟩ := List.mem_map.mp hrow
    exact Or.inl ⟨(name, table), Record.mem_of_get? hfound, source, hsource, heq⟩
  | none =>
    rw [hfound] at h
    dsimp only at h
    split at h
    · cases Option.some.inj h
      obtain ⟨table, -, heq⟩ := List.mem_map.mp hrow
      exact Or.inr ⟨table, _, heq⟩
    · cases h

theorem all_provider {c : Catalog} {property : Row → Prop}
    (h : ∀ entry ∈ c.tables, ∀ row ∈ entry.2.rows, property (Row.ofPlain row))
    (hlisted : ∀ name description, property (listed name description)) :
    c.provider.All property := by
  intro name rows hrows row hrow
  unfold provider at hrows
  dsimp only at hrows
  cases hfound : c.rows? name with
  | none =>
    rw [hfound] at hrows
    cases hrows
  | some found =>
    rw [hfound] at hrows
    cases Except.ok.inj hrows
    rcases mem_of_rows? hfound hrow with ⟨entry, hentry, source, hsource, rfl⟩ | ⟨_, _, rfl⟩
    · exact h entry hentry source hsource
    · exact hlisted _ _

theorem proper_listed (name description : String) : (listed name description).Proper := by
  refine Value.proper_map_iff.mpr ⟨⟨?_, ?_⟩, ?_⟩
  · simp [listed, Record.names]
  · simp [listed, Record.names]
  · simp [listed, Value.Proper]

theorem proper_provider (c : Catalog) : c.provider.All Row.Proper :=
  all_provider (fun _ _ row _ => Row.proper_ofPlain row) proper_listed

end Catalog

def Provider.ofRows (rows : List PlainRow) : Provider := (Catalog.mk [("t", ⟨none, rows⟩)]).provider

theorem Provider.all_ofRows {rows : List PlainRow} {property : Row → Prop}
    (h : ∀ row ∈ rows, property (Row.ofPlain row))
    (hlisted : ∀ name description, property (Catalog.listed name description)) :
    (ofRows rows).All property := by
  refine Catalog.all_provider (fun entry hentry => ?_) hlisted
  rwa [List.mem_singleton.mp hentry]

end TableQuery
