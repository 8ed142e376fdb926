import TableQuery.Proofs.Data.RecordNames
import TableQuery.Proofs.Data.Success
import TableQuery.Proofs.Query.SelectList
import TableQuery.Proofs.Text.FieldPath
import TableQuery.Query.Statement

/-! # The column names of a statement

Every column that is read from a query starts like a name or is the star: a field path, an
alias, or the label of a call. So a record holds its columns in the order of first entry.
-/
namespace TableQuery

theorem isDigit_of_isNameStart {c : Char} (h : Text.isNameStart c = true) : c.isDigit = false := by
  rw [← Bool.not_eq_true, Text.isDigit_iff]
  have hstart := Text.isNameStart_iff.mp h
  omega

theorem index?_of_isName {cs : List Char} (h : Text.isName cs = true) :
    Record.index? (String.ofList cs) = none := by
  cases cs with
  | nil => cases h
  | cons c cs =>
    rw [Text.isName, Bool.and_eq_true] at h
    exact Record.index?_eq_none String.toList_ofList (isDigit_of_isNameStart h.1)

theorem index?_of_isFieldPath {cs : List Char} (h : Text.isFieldPath cs = true) :
    Record.index? (String.ofList cs) = none := by
  obtain ⟨c, rest, rfl, hc⟩ := Text.exists_cons_of_isFieldPath h
  exact Record.index?_eq_none String.toList_ofList (isDigit_of_isNameStart hc)

theorem index?_label (call : Call) : Record.index? call.label = none := by
  have hname : ∃ c rest, call.function.name.toList = c :: rest ∧ c.isDigit = false := by
    cases call.function <;> exact ⟨_, _, rfl, rfl⟩
  obtain ⟨c, rest, hname, hc⟩ := hname
  have hlabel : call.label.toList = c :: (rest ++ ("(" ++ call.field ++ ")").toList) := by
    unfold Call.label
    rw [String.append_assoc, String.append_assoc, String.toList_append, hname, List.cons_append]
    rfl
  exact Record.index?_eq_none hlabel hc

namespace Entries
variable {α : Type}

theorem mem_set {entries : List (String × α)} {key : String} {a : α} {entry : String × α}
    (h : entry ∈ set entries key a) : entry.1 = key ∨ entry ∈ entries := by
  unfold set at h
  split at h
  · obtain ⟨old, hold, rfl⟩ := List.mem_map.mp h
    split
    · exact Or.inl rfl
    · exact Or.inr hold
  · rcases List.mem_append.mp h with h | h
    · exact Or.inr h
    · exact Or.inl (congrArg Prod.fst (List.mem_singleton.mp h))

theorem nodup_set {entries : List (String × α)} (h : (entries.map (·.1)).Nodup) (key : String)
    (a : α) : ((set entries key a).map (·.1)).Nodup := by
  unfold set
  split
  · have hkeys : (entries.map fun entry => if entry.1 = key then (key, a) else entry).map (·.1) =
        entries.map (·.1) := by
      rw [List.map_map]
      refine List.map_congr_left fun entry _ => ?_
      by_cases hkey : entry.1 = key
      · simp [hkey]
      · simp [hkey]
    rwa [hkeys]
  · next hnew =>
    have hnew : key ∉ entries.map (·.1) := fun hmem => hnew (Record.has_iff.mpr hmem)
    rw [List.map_append, List.map_singleton]
    refine List.nodup_append.mpr ⟨h, List.pairwise_singleton _ key, ?_⟩
    intro other hother added hadded hsame
    rw [hsame, List.mem_singleton.mp hadded] at hother
    exact hnew hother

end Entries

namespace Selection

/-- No column of a select list is named by a whole number. -/
structure Labelled (s : Selection) : Prop where
  columns : ∀ column ∈ s.columns, Record.index? column = none
  calls : ∀ entry ∈ s.calls, Record.index? entry.1 = none

theorem Labelled.empty (distinct : Bool) : (Selection.empty distinct).Labelled :=
  ⟨by simp [Selection.empty], by simp [Selection.empty]⟩

/-- A selection with one column more, and with its call and what it stands for where it has them. -/
def enter (s : Selection) (column : String) (call? : Option Call) (source? : Option String) :
    Selection :=
  { s with
    columns := s.columns ++ [column]
    calls := Entries.enter s.calls column call?
    aliases := Entries.enter s.aliases column source? }

/-- What an item of a select list can add: a call or a path, under its own name or under an
alias. -/
inductive Adds : String → Option Call → Option String → Prop
  | call (call : Call) : Adds call.label (some call) none
  | namedCall {name : List Char} (hname : Text.isName name = true) (call : Call) :
      Adds (String.ofList name) (some call) (some call.label)
  | path {path : List Char} (hpath : path = ['*'] ∨ Text.isFieldPath path = true) :
      Adds (String.ofList path) none none
  | namedPath {name : List Char} (hname : Text.isName name = true) (source : String) :
      Adds (String.ofList name) none (some source)

theorem Adds.index? {column : String} {call? : Option Call} {source? : Option String}
    (h : Adds column call? source?) : Record.index? column = none := by
  cases h with
  | call call => exact index?_label call
  | namedCall hname | namedPath hname => exact index?_of_isName hname
  | path hpath =>
    rcases hpath with rfl | hpath
    · decide +kernel
    · exact index?_of_isFieldPath hpath

theorem Labelled.enter {s : Selection} (hs : s.Labelled) {column : String}
    (h : Record.index? column = none) (call? : Option Call) (source? : Option String) :
    (s.enter column call? source?).Labelled := by
  constructor
  · intro other hother
    rcases List.mem_append.mp hother with hother | hother
    · exact hs.columns other hother
    · rw [List.mem_singleton.mp hother, h]
  · intro entry hentry
    cases call? with
    | none => exact hs.calls entry hentry
    | some call =>
      rcases Entries.mem_set hentry with hkey | hentry
      · rw [hkey, h]
      · exact hs.calls entry hentry

theorem isName_of_aliased? {cs expression name : List Char}
    (h : aliased? cs = some (expression, name)) : Text.isName name = true := by
  unfold aliased? at h
  dsimp only at h
  split at h
  · split at h
    · next hname =>
      cases Option.some.inj h
      rw [Bool.and_eq_true] at hname
      exact hname.2
    · cases h
  · cases h

theorem exists_of_addItem {s t : Selection} {item : List Char} (h : s.addItem item = .ok t) :
    ∃ column call? source?, Adds column call? source? ∧ t = s.enter column call? source? := by
  unfold Selection.addItem at h
  by_cases hempty : item.isEmpty = true
  · rw [if_pos hempty] at h
    cases h
  rw [if_neg hempty] at h
  dsimp only at h
  cases ha : aliased? item with
  | some found =>
    obtain ⟨expression, name⟩ := found
    have hname := isName_of_aliased? ha
    rw [ha] at h
    obtain ⟨call, -, h⟩ := Success.of_bind h
    cases call with
    | some call => exact ⟨_, _, _, .namedCall hname call, (Except.ok.inj h).symm⟩
    | none =>
      dsimp only at h
      split at h
      · cases h
      · exact ⟨_, _, _, .namedPath hname _, (Except.ok.inj h).symm⟩
  | none =>
    rw [ha] at h
    obtain ⟨call, -, h⟩ := Success.of_bind h
    cases call with
    | some call => exact ⟨_, _, _, .call call, (Except.ok.inj h).symm⟩
    | none =>
      dsimp only at h
      split at h
      · cases h
      · next hpath =>
        refine ⟨_, _, _, .path ?_, (Except.ok.inj h).symm⟩
        by_cases hstar : item = ['*']
        · exact Or.inl hstar
        · exact Or.inr (by simpa [hstar] using hpath)

theorem Labelled.addItem {s t : Selection} {item : List Char} (hs : s.Labelled)
    (h : s.addItem item = .ok t) : t.Labelled := by
  obtain ⟨column, call?, source?, hadds, rfl⟩ := exists_of_addItem h
  exact hs.enter hadds.index? call? source?

theorem nodup_calls_of_addItem {s t : Selection} {item : List Char}
    (hs : (s.calls.map (·.1)).Nodup) (h : s.addItem item = .ok t) :
    (t.calls.map (·.1)).Nodup := by
  obtain ⟨column, call?, source?, -, rfl⟩ := exists_of_addItem h
  cases call? with
  | none => exact hs
  | some call => exact Entries.nodup_set hs column call

/-- A select list is read item by item, and has a star only if it has nothing else. -/
theorem exists_items_of_read {cs : List Char} {s : Selection} (h : Selection.read cs = .ok s) :
    ∃ distinct, ∃ items : List (List Char), items.foldlM addItem (empty distinct) = .ok s ∧
      (s.isStar = true → s.columns.length ≤ 1) := by
  have hitems {distinct : Bool} {text : List Char} (h : readItems distinct text = .ok s) :
      ∃ distinct, ∃ items : List (List Char), items.foldlM addItem (empty distinct) = .ok s ∧
        (s.isStar = true → s.columns.length ≤ 1) := by
    obtain ⟨-, items, -, hfold, hstar⟩ := readItems_eq_ok_iff.mp h
    exact ⟨distinct, items, hfold, hstar⟩
  have hn : Text.trim cs ≠ [] := by
    intro hempty
    unfold Selection.read at h
    rw [hempty] at h
    cases h
  rw [read_eq hn] at h
  split at h
  · exact hitems h
  · exact hitems h

theorem isStar_iff_of_read {cs : List Char} {s : Selection} (h : Selection.read cs = .ok s) :
    s.isStar = true ↔ s.columns = ["*"] := by
  obtain ⟨-, -, -, hlength⟩ := exists_items_of_read h
  constructor
  · intro hstar
    have hmem : "*" ∈ s.columns := List.contains_iff_mem.mp hstar
    cases hcolumns : s.columns with
    | nil => simp [hcolumns] at hmem
    | cons column columns =>
      have hle := hlength hstar
      rw [hcolumns] at hle hmem
      obtain rfl : columns = [] := List.length_eq_zero_iff.mp (by simpa using hle)
      rw [List.mem_singleton.mp hmem]
  · intro hcolumns
    unfold isStar
    rw [hcolumns]
    decide

theorem labelled_of_read {cs : List Char} {s : Selection} (h : Selection.read cs = .ok s) :
    s.Labelled := by
  obtain ⟨distinct, items, hfold, -⟩ := exists_items_of_read h
  exact Success.of_foldlM (fun _ _ _ hs hadd => Labelled.addItem hs hadd) (Labelled.empty _) hfold

theorem nodup_calls_of_read {cs : List Char} {s : Selection} (h : Selection.read cs = .ok s) :
    (s.calls.map (·.1)).Nodup := by
  obtain ⟨distinct, items, hfold, -⟩ := exists_items_of_read h
  have hempty : ((empty distinct).calls.map (·.1)).Nodup := List.nodup_nil
  exact Success.of_foldlM (fun _ _ _ => nodup_calls_of_addItem) hempty hfold

end Selection

namespace Query

theorem index?_of_readGroup {cs : List Char} {fields : List String}
    (h : readGroup cs = .ok fields) :
    ∀ field ∈ fields, Record.index? field = none := by
  unfold readGroup at h
  dsimp only at h
  split at h
  · cases h
  obtain ⟨items, -, h⟩ := Success.of_bind h
  intro field hfield
  obtain ⟨item, -, hread⟩ := Success.of_mapM h field hfield
  split at hread
  · cases hread
  split at hread
  · cases hread
  · next hpath =>
    cases Except.ok.inj hread
    exact index?_of_isFieldPath (by simpa using hpath)

end Query
end TableQuery
