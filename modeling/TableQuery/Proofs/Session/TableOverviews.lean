import Mathlib.Algebra.GroupWithZero.Nat
import TableQuery.Proofs.Data.RecordFields
import TableQuery.Proofs.Describe.NotedTypes
import TableQuery.Proofs.Session.OutputFormats
import TableQuery.Proofs.Text.UnitOrder
import TableQuery.Session.Overview

/-! # The overviews of all tables

The full overview and the row counts tell the same of every table, where the tables have names
of their own, none of them `__proto__`, and no survey of a table breaks off. The full overview
looks at the fields of the rows, and is the only one that trips over them.
-/
namespace TableQuery
namespace Engine
variable {p : Provider} {name description : String}

/-- The rows of a table, none where it cannot be loaded. -/
def loaded (p : Provider) (name : String) : List Row := (p.rows name).toOption.getD []

def failure? (p : Provider) (name : String) : Option String :=
  match p.rows name with
  | .ok _ => none
  | .error reason => some reason

/-- What is found in a table when some names are noted. -/
def inspected (p : Provider) (maxSamples : Option Nat) (noted : Record.Noted) (name : String) :
    Except String (Nat × Record Profile) :=
  match p.rows name with
  | .error reason => .error reason
  | .ok rows =>
    match (Profile.ofRows maxSamples noted rows).1 with
    | .ok fields => .ok (rows.length, fields)
    | .error reason => .error reason.message

def infoOf (name description : String) : Except String (Nat × Record Profile) → TableInfo
  | .ok (count, fields) => ⟨name, description, count, fields, fields.length, none⟩
  | .error reason => ⟨name, description, 0, [], 0, some reason⟩

theorem noted_log (entry : LogEntry) (j : Journal) : (j.log entry).noted = j.noted := by
  unfold Journal.log
  split <;> rfl

theorem run_inspect (p : Provider) (maxSamples : Option Nat) (name : String) (j : Journal) :
    ∃ j', (inspect p maxSamples name).run j = (inspected p maxSamples j.noted name, j') ∧
      (Survey.Surveyable j.noted [] (loaded p name).flatten →
        j'.noted.Alike (j.noted.behind (loaded p name).flatten)) := by
  unfold inspect inspected fetchRows loaded
  cases p.rows name with
  | error reason =>
    refine ⟨_, rfl, fun _ => ?_⟩
    rw [Except.toOption, Option.getD_none, List.flatten_nil, Record.Noted.behind_nil]
    exact .refl j.noted
  | ok rows =>
    refine ⟨(j.fetch name).note (Profile.ofRows maxSamples j.noted rows).2, ?_,
      Profile.noted_ofRows maxSamples⟩
    change StateT.run (profiled maxSamples rows >>= fun profiles =>
      (match profiles with
      | .ok fields => pure (Except.ok (rows.length, fields))
      | .error reason => pure (Except.error reason.message) :
        Recorded (Except String (Nat × Record Profile)))) (j.fetch name) = _
    have hprofiled : (profiled maxSamples rows).run (j.fetch name) =
        ((Profile.ofRows maxSamples j.noted rows).1,
          (j.fetch name).note (Profile.ofRows maxSamples j.noted rows).2) := rfl
    rw [StateT.run_bind, hprofiled]
    dsimp only
    cases (Profile.ofRows maxSamples j.noted rows).1 <;> rfl

theorem run_bind_of_ok {ε α β : Type} {x : ExceptT ε (StateM Journal) α}
    {f : α → ExceptT ε (StateM Journal) β} {a : α} {j j' : Journal}
    (h : x.run.run j = (.ok a, j')) : (x >>= f).run.run j = (f a).run.run j' := by
  change ((ExceptT.bindCont f (x.run.run j).1).run (x.run.run j).2) = _
  rw [h]
  rfl

theorem run_liftM_ok {α : Type} (a : α) (j : Journal) :
    (liftM (Except.ok a : Except String α) : ExceptT String (StateM Journal) α).run.run j =
      (.ok a, j) := rfl

theorem run_lift {ε α : Type} {x : StateM Journal α} {a : α} {j j' : Journal}
    (h : x.run j = (a, j')) :
    (ExceptT.lift x : ExceptT ε (StateM Journal) α).run.run j = (.ok a, j') := by
  change (Except.ok (x.run j).1, (x.run j).2) = _
  rw [h]

theorem run_tableInfo (maxSamples : Option Nat) (hd : p.describe name = .ok description)
    (j : Journal) :
    ∃ j', (tableInfo p maxSamples name).run.run j =
        (.ok (infoOf name description (inspected p maxSamples j.noted name)), j') ∧
      (Survey.Surveyable j.noted [] (loaded p name).flatten →
        j'.noted.Alike (j.noted.behind (loaded p name).flatten)) := by
  obtain ⟨j', hinspect, hnoted⟩ := run_inspect p maxSamples name j
  unfold tableInfo
  rw [hd, run_bind_of_ok (run_liftM_ok _ _), run_bind_of_ok (run_lift hinspect)]
  cases inspected p maxSamples j.noted name with
  | error reason =>
    refine ⟨_, rfl, ?_⟩
    rw [noted_log]
    exact hnoted
  | ok found => exact ⟨_, rfl, hnoted⟩

/-- What the overview of a table shows is what the counts show of it, where its survey does not
break off. -/
structure Shows (p : Provider) (noted : Record.Noted) (name : String) (t : TableInfo) : Prop where
  name_eq : t.name = name
  fieldCount_eq : t.fieldCount = t.fields.length
  count_of_error : t.error.isSome = true → t.count = 0
  error_of_failure : (failure? p name).isSome = true → t.error.isSome = true
  same_of_surveyable : Survey.Surveyable noted [] (loaded p name).flatten →
    t.count = (loaded p name).length ∧ t.error = failure? p name
  surveyable_of_failure : t.error.isSome = (failure? p name).isSome →
    Survey.Surveyable noted [] (loaded p name).flatten

theorem shows_inspected (maxSamples : Option Nat) (noted : Record.Noted)
    (name description : String) :
    Shows p noted name (infoOf name description (inspected p maxSamples noted name)) := by
  unfold inspected
  cases hrows : p.rows name with
  | error reason =>
    have hloaded : loaded p name = [] := by rw [loaded, hrows]; rfl
    have hfailure : failure? p name = some reason := by rw [failure?, hrows]
    constructor <;> simp [infoOf, hloaded, hfailure, Survey.surveyable_nil]
  | ok rows =>
    have hloaded : loaded p name = rows := by rw [loaded, hrows]; rfl
    have hfailure : failure? p name = none := by rw [failure?, hrows]
    have hok := Profile.isOk_ofRows maxSamples noted rows
    dsimp only
    cases hprofiles : (Profile.ofRows maxSamples noted rows).1 with
    | error reason =>
      rw [hprofiles] at hok
      have hnot : ¬Survey.Surveyable noted [] rows.flatten := fun h => Bool.false_ne_true (hok.mpr h)
      constructor <;> simp [infoOf, hloaded, hfailure, hnot]
    | ok fields =>
      rw [hprofiles] at hok
      have hsurveyable : Survey.Surveyable noted [] rows.flatten := hok.mp rfl
      constructor <;> simp [infoOf, hloaded, hfailure, hsurveyable]

/-- The fields of all rows that are loaded, table by table. -/
def fieldsOf (p : Provider) (names : List String) : List (String × Value) :=
  names.flatMap fun name => (loaded p name).flatten

/-- No survey of some tables breaks off, one table behind the other. -/
def AllSurveyable (p : Provider) (noted : Record.Noted) (names : List String) : Prop :=
  ∀ front name back, names = front ++ name :: back →
    Survey.Surveyable (noted.behind (fieldsOf p front)) [] (loaded p name).flatten

/-- Tables shown one behind the other, each with what is noted behind those before. -/
inductive ShowsAll (p : Provider) : Record.Noted → List String → List TableInfo → Prop where
  | nil (noted : Record.Noted) : ShowsAll p noted [] []
  | cons {noted noted' : Record.Noted} {names : List String} {name : String} {t : TableInfo}
      {tables : List TableInfo} (h : Shows p noted name t)
      (hnoted : Survey.Surveyable noted [] (loaded p name).flatten →
        noted'.Alike (noted.behind (loaded p name).flatten))
      (hs : ShowsAll p noted' names tables) : ShowsAll p noted (name :: names) (t :: tables)

variable {noted : Record.Noted} {names : List String} {tables : List TableInfo}

theorem allSurveyable_nil : AllSurveyable p noted [] := by
  intro front name back heq
  exact absurd heq.symm (List.append_ne_nil_of_right_ne_nil _ (List.cons_ne_nil _ _))

theorem allSurveyable_congr {noted' : Record.Noted} (h : noted.Alike noted') :
    AllSurveyable p noted names ↔ AllSurveyable p noted' names :=
  forall₄_congr fun _ _ _ _ => Survey.surveyable_congr (h.behind _)

theorem allSurveyable_cons : AllSurveyable p noted (name :: names) ↔
    Survey.Surveyable noted [] (loaded p name).flatten ∧
      AllSurveyable p (noted.behind (loaded p name).flatten) names := by
  have hfields (front : List String) : (noted.behind (fieldsOf p (name :: front))).Alike
      ((noted.behind (loaded p name).flatten).behind (fieldsOf p front)) := by
    rw [fieldsOf, List.flatMap_cons]
    exact Record.Noted.alike_behind_append noted _ _
  constructor
  · intro h
    have hfirst := h [] name names rfl
    rw [fieldsOf, List.flatMap_nil, Record.Noted.behind_nil] at hfirst
    refine ⟨hfirst, fun front other back heq => ?_⟩
    rw [← Survey.surveyable_congr (hfields front)]
    exact h (name :: front) other back (by rw [heq, List.cons_append])
  · rintro ⟨hfirst, hrest⟩ front other back heq
    rcases List.cons_eq_append_iff.mp heq with ⟨rfl, hsame⟩ | ⟨front, rfl, hsame⟩
    · obtain ⟨rfl, rfl⟩ : other = name ∧ back = names := by simpa using hsame
      rw [fieldsOf, List.flatMap_nil, Record.Noted.behind_nil]
      exact hfirst
    · rw [Survey.surveyable_congr (hfields front)]
      exact hrest front other back hsame

theorem showsAll_run (maxSamples : Option Nat)
    (hd : ∀ name ∈ names, ∃ description, p.describe name = .ok description) (j : Journal) :
    ∃ tables j', (names.mapM (tableInfo p maxSamples)).run.run j = (.ok tables, j') ∧
      ShowsAll p j.noted names tables := by
  induction names generalizing j with
  | nil => exact ⟨[], j, rfl, .nil _⟩
  | cons name names ih =>
    obtain ⟨⟨description, hdescription⟩, hrest⟩ := List.forall_mem_cons.mp hd
    obtain ⟨j', htable, hnoted⟩ := run_tableInfo maxSamples hdescription j
    obtain ⟨tables, j'', htables, hshows⟩ := ih hrest j'
    refine ⟨_ :: tables, j'', ?_,
      .cons (shows_inspected maxSamples _ name description) hnoted hshows⟩
    rw [List.mapM_cons, run_bind_of_ok htable, run_bind_of_ok htables]
    rfl

theorem ShowsAll.names_eq (h : ShowsAll p noted names tables) :
    tables.map TableInfo.name = names := by
  induction h with
  | nil => rfl
  | cons h hnoted hs ih => rw [List.map_cons, h.name_eq, ih]

theorem ShowsAll.forall_mem (h : ShowsAll p noted names tables) :
    ∀ t ∈ tables, t.fieldCount = t.fields.length ∧ (t.error.isSome = true → t.count = 0) := by
  induction h with
  | nil => exact List.forall_mem_nil _
  | cons h hnoted hs ih => exact List.forall_mem_cons.mpr ⟨⟨h.fieldCount_eq, h.count_of_error⟩, ih⟩

theorem ShowsAll.same_of_surveyable (h : ShowsAll p noted names tables)
    (hall : AllSurveyable p noted names) :
    tables.map TableInfo.count = names.map (fun name => (loaded p name).length) ∧
      tables.map TableInfo.error = names.map (failure? p) := by
  induction h with
  | nil => exact ⟨rfl, rfl⟩
  | cons h hnoted hs ih =>
    obtain ⟨hfirst, hrest⟩ := allSurveyable_cons.mp hall
    obtain ⟨hcount, herror⟩ := h.same_of_surveyable hfirst
    obtain ⟨hcounts, herrors⟩ := ih ((allSurveyable_congr (hnoted hfirst)).mpr hrest)
    simp only [List.map_cons]
    exact ⟨by rw [hcount, hcounts], by rw [herror, herrors]⟩

theorem ShowsAll.countP_le (h : ShowsAll p noted names tables) :
    names.countP (fun name => (failure? p name).isSome) ≤
      tables.countP fun t => t.error.isSome := by
  induction h with
  | nil => exact Nat.le_refl 0
  | @cons noted noted' names name t tables h hnoted hs ih =>
    have hfailure := h.error_of_failure
    rw [List.countP_cons, List.countP_cons]
    cases hname : (failure? p name).isSome with
    | false => simp; omega
    | true => simp [hfailure hname]; omega

/-- Where no other table is shown with an error, no table has tripped over its fields. -/
theorem ShowsAll.allSurveyable_of_countP (h : ShowsAll p noted names tables)
    (hcount : tables.countP (fun t => t.error.isSome) =
      names.countP fun name => (failure? p name).isSome) : AllSurveyable p noted names := by
  induction h with
  | nil => exact allSurveyable_nil
  | @cons noted noted' names name t tables h hnoted hs ih =>
    have hle := hs.countP_le
    have hfailure := h.error_of_failure
    rw [List.countP_cons, List.countP_cons] at hcount
    have hsame : t.error.isSome = (failure? p name).isSome := by
      cases herror : t.error.isSome <;> cases hname : (failure? p name).isSome <;>
        simp_all
      omega
    rw [hsame] at hcount
    have hfirst := h.surveyable_of_failure hsame
    exact allSurveyable_cons.mpr
      ⟨hfirst, (allSurveyable_congr (hnoted hfirst)).mp (ih (by omega))⟩

def failures (p : Provider) (names : List String) : List String :=
  names.filterMap fun name => (failure? p name).map (uncounted name)

def counted (p : Provider) (name : String) : String × Nat × List String :=
  (name, (loaded p name).length, ((failure? p name).map (uncounted name)).toList)

def countsOf (p : Provider) (names : List String) : TableCounts :=
  ⟨Record.ofList (names.map fun name => (name, (loaded p name).length)), failures p names⟩

theorem run_countOf (p : Provider) (name : String) (j : Journal) :
    (countOf p name).run j = ((counted p name).2, j.fetch name) := by
  unfold countOf fetchRows counted loaded failure?
  cases p.rows name <;> rfl

theorem run_mapM {ε α β : Type} {f : α → ExceptT ε (StateM Journal) β} {g : α → β}
    (h : ∀ a j, ∃ j', (f a).run.run j = (.ok (g a), j')) (xs : List α) (j : Journal) :
    ∃ j', (xs.mapM f).run.run j = (.ok (xs.map g), j') := by
  induction xs generalizing j with
  | nil => exact ⟨j, rfl⟩
  | cons a xs ih =>
    obtain ⟨j', hfirst⟩ := h a j
    obtain ⟨j'', hrest⟩ := ih j'
    refine ⟨j'', ?_⟩
    rw [List.mapM_cons, run_bind_of_ok hfirst, run_bind_of_ok hrest]
    rfl

theorem run_tableCounts (hn : p.sortedNames = .ok names) (j : Journal) :
    ((tableCounts p).run.run j).1 = .ok (countsOf p names) := by
  have hstep (name : String) (j : Journal) : ∃ j', (do
      pure (name, ← ExceptT.lift (countOf p name)) : ExceptT String (StateM Journal) _).run.run j =
        (.ok (counted p name), j') := by
    refine ⟨j.fetch name, ?_⟩
    rw [run_bind_of_ok (run_lift (run_countOf p name j))]
    rfl
  obtain ⟨j', hrun⟩ := run_mapM hstep names j
  have hfailures : (names.map (counted p)).flatMap (·.2.2) = failures p names := by
    rw [failures, List.filterMap_eq_flatMap_toList, List.flatMap_map]
    rfl
  have hcounts : (names.map (counted p)).map (fun counted => (counted.1, counted.2.1)) =
      names.map fun name => (name, (loaded p name).length) := List.map_map
  unfold tableCounts
  rw [hn, run_bind_of_ok (run_liftM_ok _ _), run_bind_of_ok hrun, countsOf, ← hfailures, ← hcounts]
  rfl

def flatColumns : List String :=
  ["table_name", "table_description", "table_count", "field_name", "field_type", "field_nullable",
    "sample_values"]

theorem names_of_mem_flatRows {row : Row} (h : row ∈ flatRows tables) :
    Record.names row = flatColumns := by
  obtain ⟨t, -, h⟩ := List.mem_flatMap.mp h
  obtain ⟨field, -, rfl⟩ := List.mem_map.mp h
  rfl

theorem regular_flatRows (noted : Record.Noted) (tables : List TableInfo) :
    Render.Regular noted (flatRows tables) := by
  intro row hrow column hcolumn _
  cases hrows : flatRows tables with
  | nil =>
    rw [hrows] at hrow
    cases hrow
  | cons first rest =>
    have hfirst := names_of_mem_flatRows (hrows ▸ List.mem_cons_self)
    rw [hrows, Render.columns, hfirst, ← names_of_mem_flatRows hrow] at hcolumn
    exact Record.has_iff.mpr hcolumn

theorem length_flatRows (tables : List TableInfo) :
    (flatRows tables).length = (tables.map fun t => t.fields.length).sum := by
  simp [flatRows, List.length_flatMap]

theorem flatten_rows (noted : Record.Noted) (format : Format) (tables : List TableInfo) :
    (flatten noted format tables).map (·.2) =
      if format = .json then none else some (flatRows tables).length := by
  unfold flatten
  split
  · rfl
  · next hjson =>
    have hok := (Format.isOk_render hjson noted _).mpr (regular_flatRows noted tables)
    cases hrender : format.render noted (flatRows tables) with
    | ok content => rfl
    | error reason =>
      rw [hrender] at hok
      cases hok

theorem run_adapt {ε ε' α : Type} {x : ExceptT ε (StateM Journal) α} {a : α} {j j' : Journal}
    (f : ε → ε') (h : x.run.run j = (.ok a, j')) : (x.adapt f).run.run j = (.ok a, j') := by
  change (Except.mapError f (x.run.run j).1, (x.run.run j).2) = _
  rw [h]
  rfl

theorem run_fullSchema {options : SchemaOptions} {format : Format}
    (hf : Format.ofName? options.format = some format) (hn : p.sortedNames = .ok names)
    (hd : ∀ name ∈ names, ∃ description, p.describe name = .ok description) (j : Journal) :
    ∃ tables noted, ((fullSchema p options).run.run j).1 =
        .ok ⟨format, tables, flatten noted format tables⟩ ∧ ShowsAll p j.noted names tables := by
  obtain ⟨tables, j', hrun, hshows⟩ :=
    showsAll_run (if options.includeSamples then some options.maxSamples else none) hd j
  refine ⟨tables, j'.noted, ?_, hshows⟩
  have hall : (describeAll p (if options.includeSamples then some options.maxSamples else
      none)).run.run j = (.ok tables, j') := by
    rw [describeAll, hn, run_bind_of_ok (run_liftM_ok _ _), hrun]
  unfold fullSchema
  rw [hf]
  dsimp only
  rw [run_bind_of_ok (run_adapt SchemaTrouble.unexpected hall)]
  rfl

/-- The full overview and the counts tell the same. -/
structure Agree (s : FullSchema) (c : TableCounts) : Prop where
  names : s.tables.map TableInfo.name = Text.sorted (Record.names c.counts)
  counts : ∀ t ∈ s.tables, Record.get? c.counts t.name = some t.count
  totalTables : s.totalTables = c.totalTables
  totalRows : s.totalRows = c.totalRows
  errors : c.errors = s.tables.filterMap fun t => t.error.map (uncounted t.name)
  count_of_error : ∀ t ∈ s.tables, t.error.isSome = true → t.count = 0
  fieldCount : ∀ t ∈ s.tables, t.fieldCount = t.fields.length
  flattened : s.flattened.map (·.2) =
    if s.format = .json then none else some (s.tables.map TableInfo.fieldCount).sum

theorem sum_eq_foldl {α : Type} (f : α → Nat) (xs : List α) :
    xs.foldl (fun n a => n + f a) 0 = (xs.map f).sum := by
  rw [List.sum_eq_foldl, List.foldl_map]

theorem length_failures (p : Provider) (names : List String) :
    (failures p names).length = names.countP fun name => (failure? p name).isSome := by
  rw [failures, List.length_filterMap_eq_countP]
  simp only [Option.isSome_map]

theorem perm_counts (hd : names.Nodup) (hproto : "__proto__" ∉ names) :
    List.Perm (countsOf p names).counts (names.map fun name => (name, (loaded p name).length)) := by
  have hnames : (names.map fun name => (name, (loaded p name).length)).map (·.1) = names := by
    rw [List.map_map]
    exact List.map_id names
  refine Record.perm_ofList ?_ ?_
  · rwa [hnames]
  · rwa [hnames]

theorem agree_of_same {format : Format} {noted' : Record.Noted}
    (h : ShowsAll p noted names tables) (hd : names.Nodup) (hproto : "__proto__" ∉ names)
    (hsorted : Text.sorted names = names) (hall : AllSurveyable p noted names) :
    Agree ⟨format, tables, flatten noted' format tables⟩ (countsOf p names) := by
  have hnames := h.names_eq
  obtain ⟨hcounts, herrors⟩ := h.same_of_surveyable hall
  have hperm := perm_counts (p := p) hd hproto
  have hcount : ∀ t ∈ tables, t.count = (loaded p t.name).length := by
    rw [← hnames, List.map_map] at hcounts
    exact List.map_inj_left.mp hcounts
  have herror : ∀ t ∈ tables, t.error = failure? p t.name := by
    rw [← hnames, List.map_map] at herrors
    exact List.map_inj_left.mp herrors
  constructor
  · have hpermNames : (Record.names (countsOf p names).counts).Perm names := by
      have hmapped := hperm.map (·.1)
      rwa [List.map_map, show ((·.1) ∘ fun name => (name, (loaded p name).length)) = id from rfl,
        List.map_id] at hmapped
    rw [hnames, Text.sorted_eq_of_perm hpermNames, hsorted]
  · intro t ht
    have hmem : t.name ∈ names := hnames ▸ List.mem_map_of_mem ht
    rw [hcount t ht]
    exact Record.get?_ofList_of_names (fun name => (loaded p name).length) hmem
      fun heq => hproto (heq ▸ hmem)
  · have hlength := hperm.length_eq
    rw [List.length_map, ← hnames, List.length_map] at hlength
    rw [← hnames]
    exact hlength.symm
  · have hsum : ((countsOf p names).counts.map (·.2)).sum = (tables.map TableInfo.count).sum := by
      rw [(hperm.map (·.2)).sum_nat, List.map_map, hcounts]
      rfl
    unfold FullSchema.totalRows TableCounts.totalRows
    rw [sum_eq_foldl, sum_eq_foldl, hsum]
  · have hlines : failures p names =
        tables.filterMap fun t => (failure? p t.name).map (uncounted t.name) := by
      rw [failures, ← hnames, List.filterMap_map]
      rfl
    refine hlines.trans (List.filterMap_congr fun t ht => ?_)
    rw [herror t ht]
  · exact fun t ht => (h.forall_mem t ht).2
  · exact fun t ht => (h.forall_mem t ht).1
  · have hfields : tables.map TableInfo.fieldCount = tables.map fun t => t.fields.length :=
      List.map_congr_left fun t ht => (h.forall_mem t ht).1
    rw [flatten_rows, length_flatRows, hfields]

theorem allSurveyable_of_agree {format : Format} {noted' : Record.Noted}
    (h : ShowsAll p noted names tables)
    (hagree : Agree ⟨format, tables, flatten noted' format tables⟩ (countsOf p names)) :
    AllSurveyable p noted names := by
  refine h.allSurveyable_of_countP ?_
  have hlength := congrArg List.length hagree.errors
  rw [List.length_filterMap_eq_countP] at hlength
  simp only [Option.isSome_map] at hlength
  rw [← length_failures]
  exact hlength.symm

/-- Both overviews succeed where the tables are named and described. They agree where the names
differ, no table is named `__proto__` and no survey of a table breaks off, and only there. -/
theorem agree_iff {p : Provider} {names : List String} {options : SchemaOptions}
    (hn : p.names = .ok names)
    (hdescribed : ∀ name ∈ names, (p.description name).isOk = true)
    (hf : (Format.ofName? options.format).isSome = true) (j j' : Journal) :
    ∃ s c, ((fullSchema p options).run.run j).1 = .ok s ∧
      ((tableCounts p).run.run j').1 = .ok c ∧ Format.ofName? options.format = some s.format ∧
      (Agree s c ↔ names.Nodup ∧ "__proto__" ∉ names ∧
        AllSurveyable p j.noted (Text.sorted names)) := by
  obtain ⟨format, hformat⟩ := Option.isSome_iff_exists.mp hf
  have hperm : (Text.sorted names).Perm names := List.mergeSort_perm _ _
  have hsorted : p.sortedNames = .ok (Text.sorted names) := by
    rw [Provider.sortedNames, hn]
    rfl
  have hdescribe : ∀ name ∈ Text.sorted names,
      ∃ description, p.describe name = .ok description := by
    intro name hname
    have hok := hdescribed name (hperm.mem_iff.mp hname)
    unfold Provider.describe
    cases hdescription : p.description name with
    | ok description => exact ⟨_, rfl⟩
    | error reason =>
      rw [hdescription] at hok
      cases hok
  obtain ⟨tables, noted, hschema, hshows⟩ := run_fullSchema hformat hsorted hdescribe j
  refine ⟨_, _, hschema, run_tableCounts hsorted j', hformat, fun hagree => ?_, ?_⟩
  · -- the names that are counted are the keys of a record
    have hcounted := Record.proper_ofList
      ((Text.sorted names).map fun name => (name, (loaded p name).length))
    have hnames := hshows.names_eq.symm.trans hagree.names
    have hpermCounted : names.Perm (Record.names (countsOf p (Text.sorted names)).counts) :=
      hperm.symm.trans ((List.Perm.of_eq hnames).trans (List.mergeSort_perm _ _))
    exact ⟨hpermCounted.nodup_iff.mpr hcounted.nodup,
      fun hproto => hcounted.noProto (hpermCounted.mem_iff.mp hproto),
      allSurveyable_of_agree hshows hagree⟩
  · rintro ⟨hd, hproto, hall⟩
    exact agree_of_same hshows (hperm.nodup_iff.mpr hd) (fun hmem => hproto (hperm.mem_iff.mp hmem))
      (Text.sorted_eq_of_perm hperm) hall

/-- One table cannot be loaded. In the other a field `type` stands in front of the type that every
record shows behind `__proto__`, and with it comes an empty list under the name of a function. -/
theorem agree_iff_unloaded :
    let p : Provider := {
      hasTable := fun _ => .ok true
      names := .ok ["b", "a"]
      rows := fun name => if name = "a" then .error "no rows" else
        .ok [[("type", .string "x"), ("n", .null)], [("__proto__", .bool true)],
          [("valueOf", .list []), ("type", .null)]]
      description := fun _ => .ok none }
    let options : SchemaOptions := ⟨"Csv", true, 3⟩
    p.names = .ok ["b", "a"] ∧
    (∀ name ∈ ["b", "a"], (p.description name).isOk = true) ∧
    (Format.ofName? options.format).isSome = true ∧
    ∃ s c, ((fullSchema p options).run.run {}).1 = .ok s ∧
      ((tableCounts p).run.run {}).1 = .ok c ∧ Format.ofName? options.format = some s.format ∧
      Agree s c := by
  intro p options
  have hdescribed : ∀ name ∈ ["b", "a"], (p.description name).isOk = true := fun _ _ => rfl
  have hf : (Format.ofName? options.format).isSome = true := by decide
  obtain ⟨s, c, hs, hc, hformat, hagree⟩ :=
    agree_iff (p := p) rfl hdescribed hf {} {}
  have hsorted : Text.sorted ["b", "a"] = ["a", "b"] :=
    (Text.sorted_eq_of_perm (.swap "a" "b" [])).trans (List.mergeSort_of_pairwise (by decide))
  have hall : AllSurveyable p {} (Text.sorted ["b", "a"]) := by
    rw [hsorted, allSurveyable_cons, allSurveyable_cons, ← Profile.isOk_ofRows none,
      ← Profile.isOk_ofRows none]
    exact ⟨by decide, by decide, allSurveyable_nil⟩
  exact ⟨rfl, hdescribed, hf, s, c, hs, hc, hformat, hagree.mpr ⟨by decide, by decide, hall⟩⟩

/-- The overview trips over an empty list under a name that every record answers to. -/
theorem not_agree : ¬ ∀ (p : Provider) (names : List String) (options : SchemaOptions)
    (j j' : Journal), p.names = .ok names → names.Nodup →
      (∀ name ∈ names, (p.description name).isOk = true) →
      (Format.ofName? options.format).isSome = true →
      ∃ s c, ((fullSchema p options).run.run j).1 = .ok s ∧
        ((tableCounts p).run.run j').1 = .ok c ∧ Agree s c := by
  intro h
  let p : Provider := {
    hasTable := fun _ => .ok true
    names := .ok ["t"]
    rows := fun _ => .ok [[("valueOf", .list [])]]
    description := fun _ => .ok none }
  obtain ⟨s, c, hs, hc, hagree⟩ := h p ["t"] ⟨"json", false, 3⟩ {} {} rfl (by decide)
    (fun _ _ => rfl) (by decide)
  have hschema : (((fullSchema p ⟨"json", false, 3⟩).run.run {}).1.toOption.map
      FullSchema.totalRows) = some 0 := by decide +kernel
  have hcounts : (((tableCounts p).run.run {}).1.toOption.map TableCounts.totalRows) =
      some 1 := by decide +kernel
  rw [hs] at hschema
  rw [hc] at hcounts
  have hsame := hagree.totalRows
  rw [Option.some.inj hschema, Option.some.inj hcounts] at hsame
  cases hsame

end Engine
end TableQuery
