import TableQuery.Proofs.Query.ColumnNames

/-! # The columns of calls

A select list tells of its calls twice: in which column a call stands, and which label a column
stands for that has another name. Where no two columns have one name the two agree, so the label
of a call leads to its columns.
-/
namespace TableQuery

theorem Aggregate.name_injective : Function.Injective name := by
  intro function other h
  cases function <;> cases other <;> first | rfl | exact absurd h (by decide)

namespace Call

theorem toList_label (call : Call) :
    call.label.toList = call.function.name.toList ++ '(' :: (call.field.toList ++ [')']) := by
  simp [label]

theorem span_label (call : Call) :
    call.label.toList.takeWhile (· != '(') = call.function.name.toList ∧
    call.label.toList.dropWhile (· != '(') = '(' :: (call.field.toList ++ [')']) := by
  have hname : ∀ c ∈ call.function.name.toList, (c != '(') = true := by
    cases call.function <;> decide
  rw [toList_label]
  apply Text.span_append hname
  intro c hc
  cases hc
  rfl

theorem label_injective : Function.Injective label := by
  intro call other h
  obtain ⟨hname, hrest⟩ := call.span_label
  obtain ⟨hname', hrest'⟩ := other.span_label
  rw [h] at hname hrest
  have hfunction : call.function = other.function :=
    Aggregate.name_injective (String.toList_inj.mp (hname.symm.trans hname'))
  have hfield : call.field = other.field := by
    have hinner := (List.cons.inj (hrest.symm.trans hrest')).2
    exact String.toList_inj.mp (List.append_cancel_right hinner)
  obtain ⟨function, field⟩ := call
  obtain rfl := hfunction
  obtain rfl := hfield
  rfl

theorem isName_label (call : Call) : Text.isName call.label.toList = false := by
  rw [← Bool.not_eq_true]
  intro hname
  have hopen : '(' ∈ call.label.toList := by simp [toList_label]
  exact absurd (Text.isNameChar_of_isName hname hopen) (by decide)

end Call

namespace Entries
variable {α : Type} {entries : List (String × α)} {key name : String} {a? : Option α} {a : α}

theorem mem_enter_iff (h : key ∉ entries.map (·.1)) :
    (name, a) ∈ enter entries key a? ↔ (name, a) ∈ entries ∨ name = key ∧ a? = some a := by
  cases a? with
  | none => simp [enter]
  | some b =>
    rw [enter, set_of_notMem h, List.mem_append, List.mem_singleton, Prod.mk.injEq,
      Option.some.injEq, eq_comm (a := b)]

end Entries

namespace Selection

/-- Each table of a select list is about its columns, and they agree on the columns of calls: such
a column has the label of its call as its name, or else is an alias of the label. -/
structure Coherent (s : Selection) : Prop where
  listedCalls : ∀ entry ∈ s.calls, entry.1 ∈ s.columns
  listedAliases : ∀ entry ∈ s.aliases, entry.1 ∈ s.columns
  named : ∀ entry ∈ s.aliases, Text.isName entry.1.toList = true
  labelled : ∀ {column call}, (column, call) ∈ s.calls →
    column = call.label ∨ (column, call.label) ∈ s.aliases
  agree : ∀ {column call source}, (column, call) ∈ s.calls → (column, source) ∈ s.aliases →
    source = call.label

theorem Coherent.empty (distinct : Bool) : (Selection.empty distinct).Coherent :=
  ⟨nofun, nofun, nofun, nofun, nofun⟩

section
variable {s : Selection} (hs : s.Coherent)
include hs

theorem Coherent.enter {column : String} {call? : Option Call} {source? : Option String}
    (hnew : column ∉ s.columns) (hadds : Adds column call? source?) :
    (s.enter column call? source?).Coherent := by
  have hcalls : column ∉ s.calls.map (·.1) := by
    intro h
    obtain ⟨entry, hentry, rfl⟩ := List.mem_map.mp h
    exact hnew (hs.listedCalls entry hentry)
  have haliases : column ∉ s.aliases.map (·.1) := by
    intro h
    obtain ⟨entry, hentry, rfl⟩ := List.mem_map.mp h
    exact hnew (hs.listedAliases entry hentry)
  have hcall {name : String} {call : Call} :
      (name, call) ∈ (s.enter column call? source?).calls ↔
        (name, call) ∈ s.calls ∨ name = column ∧ call? = some call :=
    Entries.mem_enter_iff hcalls
  have halias {name source : String} :
      (name, source) ∈ (s.enter column call? source?).aliases ↔
        (name, source) ∈ s.aliases ∨ name = column ∧ source? = some source :=
    Entries.mem_enter_iff haliases
  constructor
  · rintro ⟨name, call⟩ hentry
    rcases hcall.mp hentry with hold | ⟨rfl, -⟩
    · exact List.mem_append_left _ (hs.listedCalls _ hold)
    · exact List.mem_append_right _ List.mem_cons_self
  · rintro ⟨name, source⟩ hentry
    rcases halias.mp hentry with hold | ⟨rfl, -⟩
    · exact List.mem_append_left _ (hs.listedAliases _ hold)
    · exact List.mem_append_right _ List.mem_cons_self
  · rintro ⟨name, source⟩ hentry
    rcases halias.mp hentry with hold | ⟨rfl, hsource⟩
    · exact hs.named _ hold
    · cases hadds with
      | call | path => cases hsource
      | namedCall hname | namedPath hname => rwa [String.toList_ofList]
  · intro name call hentry
    rw [halias]
    rcases hcall.mp hentry with hold | ⟨rfl, hnewCall⟩
    · exact (hs.labelled hold).imp_right Or.inl
    · cases hadds with
      | call =>
        cases hnewCall
        exact Or.inl rfl
      | namedCall =>
        cases hnewCall
        exact Or.inr (Or.inr ⟨rfl, rfl⟩)
      | path | namedPath => cases hnewCall
  · intro name call source hentry hsource
    rcases hcall.mp hentry with hold | ⟨rfl, hnewCall⟩
    · rcases halias.mp hsource with hold' | ⟨rfl, -⟩
      · exact hs.agree hold hold'
      · exact absurd (hs.listedCalls _ hold) hnew
    · rcases halias.mp hsource with hold' | ⟨-, hnewSource⟩
      · exact absurd (hs.listedAliases _ hold') hnew
      · cases hadds with
        | call => cases hnewSource
        | namedCall =>
          cases hnewCall
          exact (Option.some.inj hnewSource).symm
        | path | namedPath => cases hnewCall

theorem Coherent.eq_of_label {call other : Call} (h : (call.label, other) ∈ s.calls) :
    other = call := by
  rcases hs.labelled h with hlabel | halias
  · exact Call.label_injective hlabel.symm
  · have hname := hs.named _ halias
    rw [call.isName_label] at hname
    cases hname

theorem Coherent.eq_of_alias {name : String} {call other : Call} (h : (name, other) ∈ s.calls)
    (halias : (name, call.label) ∈ s.aliases) : other = call :=
  Call.label_injective (hs.agree h halias).symm

end

/-- The tables of a select list agree where no two of its columns have one name. -/
theorem coherent_of_read {cs : List Char} {s : Selection} (h : Selection.read cs = .ok s)
    (hnames : s.columns.Nodup) : s.Coherent := by
  obtain ⟨distinct, items, hfold, -⟩ := exists_items_of_read h
  have hstep (s : Selection) (item : List Char) (t : Selection)
      (hs : s.columns.Nodup → s.Coherent) (hadd : s.addItem item = .ok t) :
      t.columns.Nodup → t.Coherent := by
    obtain ⟨column, call?, source?, hadds, rfl⟩ := exists_of_addItem hadd
    intro hnodup
    obtain ⟨hold, -, hapart⟩ := List.nodup_append.mp hnodup
    have hnew : column ∉ s.columns := fun hmem => hapart _ hmem _ List.mem_cons_self rfl
    exact (hs hold).enter hnew hadds
  have hempty : (Selection.empty distinct).columns.Nodup → (Selection.empty distinct).Coherent :=
    fun _ => .empty distinct
  exact Success.of_foldlM hstep hempty hfold hnames

end Selection
end TableQuery
