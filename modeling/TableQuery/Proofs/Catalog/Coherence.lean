import TableQuery.Proofs.Catalog.AllRows
import TableQuery.Proofs.Catalog.GivenTables
import TableQuery.Proofs.Text.UnitOrder
import TableQuery.Proofs.Value.RoundTrip

/-! # Coherent catalogs

The answers of a catalog agree: a name that it lists is a table that it has and whose rows it
gives. Each table is the one that the data gives under its name, and the list of tables is added
where the data has no table of that name.
-/
namespace TableQuery
namespace Catalog

theorem find?_eq_none_iff {c : Catalog} {name : String} :
    c.find? name = none ↔ name ∉ Record.names c.tables := Record.get?_eq_none_iff

theorem mem_names_iff {c : Catalog} {name : String} :
    name ∈ c.names ↔ name ∈ Record.names c.tables ∨ name = tablesName := by
  unfold names Record.names
  dsimp only
  split
  · next hown =>
    refine ⟨.inl, ?_⟩
    rintro (h | rfl)
    · exact h
    · exact List.contains_iff_mem.mp hown
  · simp

theorem nodup_names {c : Catalog} (h : (Record.names c.tables).Nodup) : c.names.Nodup := by
  unfold names
  dsimp only
  split
  · exact h
  · next hown =>
    refine List.nodup_append.mpr ⟨h, List.pairwise_singleton _ _, ?_⟩
    rintro name hname _ hlast rfl
    rw [List.mem_singleton.mp hlast] at hname
    exact hown (List.contains_iff_mem.mpr hname)

theorem has_eq_true_iff {c : Catalog} {name : String} : c.has name = true ↔ name ∈ c.names := by
  rw [mem_names_iff, ← Record.has_iff, has, Bool.or_eq_true, beq_iff_eq]
  exact Iff.rfl

theorem isSome_rows?_iff {c : Catalog} {name : String} :
    (c.rows? name).isSome = true ↔ name ∈ c.names := by
  rw [← has_eq_true_iff, has, rows?]
  cases c.find? name with
  | some table => simp
  | none =>
    by_cases hname : name = tablesName <;> simp [hname]

theorem rows_provider_eq_ok_iff {c : Catalog} {name : String} {rows : List Row} :
    c.provider.rows name = .ok rows ↔ c.rows? name = some rows := by
  unfold provider
  dsimp only
  cases c.rows? name <;> simp

end Catalog

/-- A name of some data, or that of the list of tables. -/
def IsTable (fields : Record Plain) (name : String) : Prop :=
  name ∈ Record.names fields ∨ name = Catalog.tablesName

namespace Provider

/-- A table has the description that plain data gives it, and the rows made of the given ones. -/
def Holds (p : Provider) (name : String) (given : Plain) : Prop :=
  ∃ description rows, GivesTable given description rows ∧ p.description name = .ok description ∧
    p.rows name = .ok (rows.map Row.ofPlain)

/-- The rows of a table are, as plain data, the given ones. -/
def ServesBack (p : Provider) (name : String) (given : Plain) : Prop :=
  ∃ description rows stored, GivesTable given description rows ∧ p.rows name = .ok stored ∧
    stored.map Row.toPlain = rows

/-- The list of tables has one row for each table, with its description, and is sorted by name. -/
def Lists (p : Provider) (fields : Record Plain) : Prop :=
  ∃ entries : List (String × String),
    p.rows Catalog.tablesName = .ok (entries.map fun entry => Catalog.listed entry.1 entry.2) ∧
      (entries.map (·.1)).Pairwise (fun a b => Text.units a < Text.units b) ∧
      (∀ name, name ∈ entries.map (·.1) ↔ IsTable fields name) ∧
      ∀ entry ∈ entries, p.describe entry.1 = .ok entry.2

/-- A provider answers for the tables of some data, and for the list of tables unless the data
has a table of that name. -/
structure Coherent (p : Provider) (fields : Record Plain) : Prop where
  hasTable : ∀ name, ∃ held, p.hasTable name = .ok held ∧ (held = true ↔ IsTable fields name)
  names : ∃ names, p.names = .ok names ∧ names.Nodup ∧ ∀ name, name ∈ names ↔ IsTable fields name
  rows : ∀ name, (∃ rows, p.rows name = .ok rows) ↔ IsTable fields name
  holds : ∀ name given, Record.get? fields name = some given → p.Holds name given
  lists : Catalog.tablesName ∉ Record.names fields → p.Lists fields

end Provider

/-- Plain data gives no row with a field `__proto__` in any of its records. -/
def RowsLackProto (given : Plain) : Prop :=
  ∀ description rows, GivesTable given description rows →
    ∀ row ∈ rows, ¬(Plain.map row).HoldsProto

theorem Plain.Arranged.item {items : List Plain} (h : (Plain.list items).Arranged) {item : Plain}
    (hitem : item ∈ items) : item.Arranged := by
  cases h with
  | list h => exact h item hitem

theorem Plain.Arranged.field {fields : PlainRow} (h : (Plain.map fields).Arranged) {name : String}
    {p : Plain} (hget : Record.get? fields name = some p) : p.Arranged := by
  cases h with
  | map _ h => exact h _ (Record.mem_of_get? hget)

theorem GivesTable.arranged {given : Plain} {description : Option String} {rows : List PlainRow}
    (h : GivesTable given description rows) (hgiven : given.Arranged) :
    ∀ row ∈ rows, (Plain.map row).Arranged := by
  intro row hrow
  cases h with
  | bare => exact hgiven.item (List.mem_map_of_mem hrow)
  | described hrows => exact (hgiven.field hrows).item (List.mem_map_of_mem hrow)

/-- The rows that plain data gives are the same whatever is said of its description. -/
theorem GivesTable.rows_unique {given : Plain} {description description' : Option String}
    {rows rows' : List PlainRow} (h : GivesTable given description rows)
    (h' : GivesTable given description' rows') : rows' = rows := by
  have hinjective {rows rows' : List PlainRow}
      (hlist : Plain.list (rows.map .map) = .list (rows'.map .map)) : rows' = rows :=
    (List.map_injective_iff.mpr (fun _ _ => Plain.map.inj) (Plain.list.inj hlist)).symm
  generalize hother : given = other at h'
  cases h with
  | bare rows =>
    cases h' with
    | bare rows' => exact hinjective hother
    | described => cases hother
  | described hrows =>
    cases h' with
    | bare => cases hother
    | described hrows' =>
      cases hother
      exact hinjective (Option.some.inj (hrows.symm.trans hrows'))

theorem Row.toPlain_ofPlain_iff {row : PlainRow} :
    (Row.ofPlain row).toPlain = row ↔ (Plain.map row).Ordered :=
  ⟨fun h => Value.toPlain_ofPlain_iff.mp (congrArg Plain.map h),
    fun h => Plain.map.inj (Value.toPlain_ofPlain_iff.mpr h)⟩

namespace Catalog

variable {fields : Record Plain} {c : Catalog}

theorem ReadsFrom.mem_names (h : c.ReadsFrom fields) (name : String) :
    name ∈ c.names ↔ IsTable fields name := by
  rw [mem_names_iff, h.names_eq, IsTable]

theorem ReadsFrom.holds (h : c.ReadsFrom fields) {name : String} {given : Plain}
    (hgiven : Record.get? fields name = some given) : c.provider.Holds name given := by
  obtain ⟨table, hfound, htable⟩ := h.find? hgiven
  refine ⟨table.description, table.rows, gives_of_readTable? htable, ?_, ?_⟩
  · simp [provider, description?, hfound]
  · simp [rows_provider_eq_ok_iff, rows?, hfound]

theorem map_toPlain_ofPlain_iff {rows : List PlainRow} :
    (rows.map Row.ofPlain).map Row.toPlain = rows ↔ ∀ row ∈ rows, (Plain.map row).Ordered := by
  have hall : (rows.map Row.ofPlain).map Row.toPlain = rows.map id ↔
      ∀ row ∈ rows, (Row.ofPlain row).toPlain = row := by
    rw [List.map_map, List.map_inj_left]
    rfl
  rw [List.map_id] at hall
  exact hall.trans (forall₂_congr fun row _ => Row.toPlain_ofPlain_iff)

/-- Rows come back as they were given exactly where they have no field `__proto__`. -/
theorem servesBack_iff {p : Provider} {name : String} {given : Plain} (h : p.Holds name given)
    (hgiven : given.Arranged) : p.ServesBack name given ↔ RowsLackProto given := by
  obtain ⟨description, rows, hgives, -, hrows⟩ := h
  constructor
  · rintro ⟨_, rows', stored, hgives', hstored, hback⟩ _ rows'' hgives'' row hrow
    cases Except.ok.inj (hrows.symm.trans hstored)
    rw [hgives.rows_unique hgives', map_toPlain_ofPlain_iff] at hback
    rw [hgives.rows_unique hgives''] at hrow
    exact (hback row hrow).not_holdsProto
  · intro hlack
    refine ⟨description, rows, _, hgives, hrows, map_toPlain_ofPlain_iff.mpr fun row hrow => ?_⟩
    exact (hgives.arranged hgiven row hrow).ordered (hlack _ _ hgives row hrow)

theorem ReadsFrom.lists (h : c.ReadsFrom fields) (hdistinct : c.names.Nodup)
    (hlist : tablesName ∉ Record.names fields) : c.provider.Lists fields := by
  have hnone : c.find? tablesName = none := by rwa [find?_eq_none_iff, h.names_eq]
  let entries := (Text.sorted c.names).map fun name => (name, (c.description? name).getD "")
  have hfirst : entries.map (·.1) = Text.sorted c.names := by simp [entries, Function.comp_def]
  refine ⟨entries, ?_, ?_, ?_, ?_⟩
  · simp [entries, rows_provider_eq_ok_iff, rows?, hnone, listing, listed]
  · rw [hfirst]
    exact Text.pairwise_sorted_lt hdistinct
  · intro name
    rw [hfirst, (Text.perm_sorted _).mem_iff, h.mem_names]
  · rintro entry hentry
    obtain ⟨name, -, rfl⟩ := List.mem_map.mp hentry
    rfl

/-- A catalog that is read from plain data is coherent. A table gives back the rows of the data
exactly where none of them has a field `__proto__`. -/
theorem coherent_of_ofPlain {p : Option Plain} (h : ofPlain p = .ok c) :
    ∃ fields : Record Plain, p = some (.map fields) ∧ ((Plain.map fields).Arranged →
      c.provider.Coherent fields ∧ ∀ name given, Record.get? fields name = some given →
        (c.provider.ServesBack name given ↔ RowsLackProto given)) := by
  obtain ⟨fields, hp, hreads⟩ := readsFrom_of_ofPlain h
  refine ⟨fields, hp, fun harranged => ⟨?_, fun name given hgiven => ?_⟩⟩
  · have hnames : (Record.names fields).Nodup := by
      cases harranged with
      | map hr _ => exact hr.nodup
    have hdistinct : c.names.Nodup := nodup_names (hreads.names_eq ▸ hnames)
    constructor
    · exact fun name => ⟨c.has name, rfl, by rw [has_eq_true_iff, hreads.mem_names]⟩
    · exact ⟨c.names, rfl, hdistinct, hreads.mem_names⟩
    · intro name
      simp only [rows_provider_eq_ok_iff]
      rw [← Option.isSome_iff_exists, isSome_rows?_iff, hreads.mem_names]
    · exact fun name given hgiven => hreads.holds hgiven
    · exact hreads.lists hdistinct
  · exact servesBack_iff (hreads.holds hgiven) (harranged.field hgiven)

/-- Data of a table of one row and of a described table without rows. -/
def twoTables : Record Plain :=
  [("cities", .list [.map [("name", .string "Rome"), ("mayors", .list [.null])]]),
    ("empty", .map [("description", .string "No rows"), ("rows", .list [])])]

theorem ordered_city :
    (Plain.map [("name", .string "Rome"), ("mayors", .list [.null])]).Ordered := by
  refine .map (by decide) ?_
  simp only [List.forall_mem_cons]
  exact ⟨.string _, .list (List.forall_mem_singleton.mpr .null), List.forall_mem_nil _⟩

theorem arranged_twoTables : (Plain.map twoTables).Arranged := by
  refine .map (by decide) ?_
  simp only [twoTables, List.forall_mem_cons]
  refine ⟨.list ?_, .map (by decide) ?_, List.forall_mem_nil _⟩
  · exact List.forall_mem_singleton.mpr ordered_city.arranged
  · simp only [List.forall_mem_cons]
    exact ⟨.string _, .list (List.forall_mem_nil _), List.forall_mem_nil _⟩

theorem coherent_of_ofPlain_twoTables : ∃ c, ofPlain (some (.map twoTables)) = .ok c ∧
    (Plain.map twoTables).Arranged ∧ c.provider.Coherent twoTables ∧
    ∃ cities, Record.get? twoTables "cities" = some cities ∧
      c.provider.ServesBack "cities" cities := by
  obtain ⟨fields, hfields, hall⟩ := coherent_of_ofPlain (p := some (.map twoTables)) rfl
  cases hfields
  obtain ⟨hcoherent, hserves⟩ := hall arranged_twoTables
  refine ⟨_, rfl, arranged_twoTables, hcoherent, _, rfl, (hserves "cities" _ rfl).mpr ?_⟩
  intro description rows hgives row hrow
  cases hgives.rows_unique (.bare [[("name", .string "Rome"), ("mayors", .list [.null])]])
  rw [List.mem_singleton.mp hrow]
  exact ordered_city.not_holdsProto

def protoTable : Record Plain :=
  [("t", .list [.map [("__proto__", .bool true), ("a", .bool false)]])]

/-- The row of the table comes back without its first field. -/
theorem not_servesBack : ¬ ∀ (fields : Record Plain) (c : Catalog),
    ofPlain (some (.map fields)) = .ok c → (Plain.map fields).Arranged →
      ∀ name given, Record.get? fields name = some given → c.provider.ServesBack name given := by
  intro h
  have harranged : (Plain.map protoTable).Arranged := by
    refine .map (by decide) ?_
    simp only [protoTable, List.forall_mem_singleton]
    refine .list (List.forall_mem_singleton.mpr (.map (by decide) ?_))
    simp only [List.forall_mem_cons]
    exact ⟨.bool _, .bool _, List.forall_mem_nil _⟩
  obtain ⟨description, rows, stored, hgives, hstored, hback⟩ :=
    h protoTable _ rfl harranged "t" _ rfl
  cases hgives.rows_unique (.bare [[("__proto__", .bool true), ("a", .bool false)]])
  cases Except.ok.inj hstored
  have hnames := congrArg (List.map Record.names) hback
  exact absurd hnames (by decide +kernel)

end Catalog
end TableQuery
