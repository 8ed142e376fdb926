import TableQuery.Proofs.Session.Outcome
import TableQuery.Proofs.Session.ShownRows

/-! # Columns that a condition tests

A condition, a group and a summary read a field by its path, and a column reads it by its whole
name first. The two find the same value in every row that does not hold a field of the whole
name of a path, so a row that passes a condition on a field shows a value that satisfies it.
-/
namespace TableQuery

/-- No field is named by the whole of a path with points. -/
def Row.Shadowless (path : String) (row : Row) : Prop :=
  '.' ∈ path.toList → Record.get? row path = none

instance (path : String) (row : Row) : Decidable (row.Shadowless path) :=
  decidable_of_iff ('.' ∈ path.toList → (Record.get? row path).isNone)
    (imp_congr_right fun _ => Option.isNone_iff_eq_none)

/-- A row that passes a condition has a value that satisfies it, null where the path leads
nowhere. -/
theorem Condition.testValue_of_test {c : Condition} {row : Row} (h : c.test row = true) :
    c.testValue (row.lookup c.field) = true := by
  unfold test at h
  unfold Row.lookup
  cases hfound : row.resolve? c.field with
  | some v =>
    rw [hfound] at h
    exact h
  | none =>
    rw [hfound] at h
    exact (Bool.and_eq_true_iff.mp h).2

def Filter.single? : Filter → Option Condition
  | .chain c [] => some c
  | _ => none

theorem Filter.single?_eq_some_iff {f : Filter} {c : Condition} :
    f.single? = some c ↔ f = .chain c [] := by
  rcases f with _ | ⟨first, _ | ⟨second, rest⟩⟩ <;> simp [single?]

namespace Statement

/-- The rows of the result show the field that a condition tests: it is selected by its path, and
where there are groups, it is one of their fields. Only rows that pass the condition count. -/
structure Tests (s : Statement) (c : Condition) : Prop where
  filter : s.filter = .chain c []
  positive : c.negated = false
  projected : s.isProjected = true
  selected : c.field ∈ s.selection.columns
  unaliased : s.selection.aliases.lookup c.field = none
  grouped : s.group = [] ∨ c.field ∈ s.group
  named : c.field ≠ "__proto__"

theorem Tests.testValue_lookup {s : Statement} {c : Condition} (h : s.Tests c) {rows : List Row}
    {row : Row} (hrow : row ∈ s.filtered rows) : c.testValue (row.lookup c.field) = true := by
  have haccepts := (List.mem_filter.mp hrow).2
  rw [h.filter, Filter.accepts, List.foldl_nil, Condition.holds, h.positive] at haccepts
  exact Condition.testValue_of_test (by simpa using haccepts)

theorem Tests.testValue_of_mem_found {s : Statement} {c : Condition} (h : s.Tests c)
    {rows : List Row} (hrows : ∀ row ∈ rows, row.Shadowless c.field) {row : Row}
    (hrow : row ∈ s.found rows) : c.testValue (s.selection.valueOf row c.field) = true := by
  have hcalls := calls_of_isProjected h.projected
  rcases h.grouped with hgroup | hgroup
  · have hungrouped : s.isGrouped = false := by simp [isGrouped, hgroup, hcalls]
    have hfiltered := mem_of_mem_found hungrouped hrow
    rw [Selection.valueOf_of_noAlias hcalls h.unaliased,
      Row.column_eq_lookup (hrows row (List.mem_filter.mp hfiltered).1)]
    exact h.testValue_lookup hfiltered
  · have hgrouped : s.isGrouped = true := by
      simp [isGrouped, List.ne_nil_of_mem hgroup]
    unfold found at hrow
    dsimp only at hrow
    rw [if_pos hgrouped] at hrow
    obtain ⟨g, hg, rfl⟩ := List.mem_map.mp hrow
    obtain ⟨first, hfirst, members, rfl⟩ := mem_groups (mem_ordered.mp hg)
    have hnotCall : c.field ∉ s.selection.calls.map (·.1) := by simp [hcalls]
    have hheld := Rows.get?_ofMembers hgroup hnotCall h.named first members
    rw [Selection.valueOf_of_get? hcalls hheld]
    exact h.testValue_lookup hfirst

end Statement

namespace Selection

/-- Without calls, a column that is no alias is the value at its path in every row without a field
of its whole name, and that field in any other; and rows that are returned for a condition on the
column show in it values that satisfy the condition. -/
theorem valueOf_eq_lookup {s : Selection} {path : String} (hcalls : s.calls = [])
    (halias : s.aliases.lookup path = none) :
    (∀ row : Row, row.Shadowless path → s.valueOf row path = row.lookup path) ∧
    (∀ row v, Record.get? row path = some v → s.valueOf row path = v) ∧
    ∀ (e : Engine) (p : Provider) (query name : String) (limit : Option Float) (j : Journal)
      (data : List PlainRow) (t : Statement) (c : Condition),
      ((e.execute p query limit name).run j).1.jsonRows? = some data →
      Statement.read query = .ok t → t.selection = s → t.Tests c → c.field = path →
      p.All (Row.Shadowless path) →
      ∀ row ∈ data, ∃ v, Record.get? row path = some (Value.toPlain v) ∧ c.testValue v = true := by
  refine ⟨fun row hrow => ?_, fun row v hv => valueOf_of_get? hcalls hv, ?_⟩
  · rw [valueOf_of_noAlias hcalls halias, Row.column_eq_lookup hrow]
  · rintro e p query name limit j data t c h hread rfl htests rfl hrows row hrow
    obtain ⟨t', rows, hanswers, rfl⟩ := Engine.answers_of_jsonRows? h
    cases Except.ok.inj (hanswers.read.symm.trans hread)
    rw [Statement.answer_eq_map, List.map_map] at hrow
    obtain ⟨found, hfound, rfl⟩ := List.mem_map.mp hrow
    have hmem := (Limit.cut_sublist _ _).subset hfound
    refine ⟨_, ?_, htests.testValue_of_mem_found (hrows _ _ hanswers.fetched) hmem⟩
    have hshown := Statement.get?_shown htests.projected htests.selected htests.named found
    have hproper : Record.Proper (t.shown found) := by
      unfold Statement.shown
      rw [if_pos htests.projected]
      exact Record.proper_ofList _
    exact (Row.get?_toPlain hproper _).trans (congrArg (Option.map Value.toPlain) hshown)

theorem valueOf_eq_lookup_nested :
    (Selection.mk ["a.b"] false [] []).valueOf [("a", .map [("b", .string "y")])] "a.b" =
      Row.lookup [("a", .map [("b", .string "y")])] "a.b" ∧
    ∃ data, (Response.overRows [[("a", .map [("b", .string "x")])],
        [("a", .map [("b", .string "y")])]]
        "SELECT a.b FROM t WHERE a.b = 'y'").jsonRows? = some data ∧
      ∃ c : Condition, c.field = "a.b" ∧ ∀ row ∈ data,
        ∃ v, Record.get? row "a.b" = some (Value.toPlain v) ∧ c.testValue v = true := by
  have hsome : (Response.overRows [[("a", .map [("b", .string "x")])],
      [("a", .map [("b", .string "y")])]]
      "SELECT a.b FROM t WHERE a.b = 'y'").jsonRows?.isSome = true := by decide +kernel
  have hread : (Statement.read "SELECT a.b FROM t WHERE a.b = 'y'").toOption.any (fun t =>
      decide (t.selection = ⟨["a.b"], false, [], []⟩ ∧ t.group = []) &&
        t.filter.single?.any fun c => decide (c.field = "a.b" ∧ c.negated = false)) = true := by
    decide +kernel
  obtain ⟨data, hdata⟩ := Option.isSome_iff_exists.mp hsome
  obtain ⟨t, rows, hanswers, -⟩ := Engine.answers_of_jsonRows? hdata
  rw [hanswers.read] at hread
  obtain ⟨hparts, hfilter⟩ := Bool.and_eq_true_iff.mp hread
  obtain ⟨hselection, hgroup⟩ := of_decide_eq_true hparts
  cases hsingle : t.filter.single? with
  | none =>
    rw [hsingle] at hfilter
    cases hfilter
  | some c =>
    rw [hsingle] at hfilter
    obtain ⟨hfield, hnegated⟩ := of_decide_eq_true hfilter
    have hprojected : t.isProjected = true := by
      unfold Statement.isProjected
      rw [hselection]
      decide
    have htests : t.Tests c := by
      have hfilter := Filter.single?_eq_some_iff.mp hsingle
      refine ⟨hfilter, hnegated, hprojected, ?_, ?_, Or.inl hgroup, ?_⟩
      · rw [hselection, hfield]
        decide
      · rw [hselection]
        rfl
      · rw [hfield]
        decide
    obtain ⟨hvalue, -, hshown⟩ :=
      valueOf_eq_lookup (s := ⟨["a.b"], false, [], []⟩) rfl (rfl : [].lookup "a.b" = none)
    exact ⟨hvalue _ (by decide), data, hdata, c, hfield, hshown _ _ _ _ _ _ data t c hdata
      hanswers.read hselection htests hfield
      (Provider.all_ofRows (by decide) fun _ _ _ => rfl)⟩

/-- A field of the whole name of a path hides the value at the path. -/
theorem valueOf_ne_lookup : ¬ ∀ (s : Selection) (row : Row) (path : String), s.calls = [] →
    Text.isFieldPath path.toList = true → s.aliases.lookup path = none →
    s.valueOf row path = row.lookup path := by
  intro h
  have hsame := h ⟨["a.b"], false, [], []⟩
    [("a.b", .string "x"), ("a", .map [("b", .string "y")])] "a.b" rfl (by decide) rfl
  have htext := congrArg Value.text hsame
  exact absurd htext (by decide)

end Selection
end TableQuery
