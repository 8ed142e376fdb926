import TableQuery.Proofs.Query.WrittenSelection

/-! # Select lists of one column

A field path on its own selects the column of its text, and with an alias the column of the
alias. The word DISTINCT alone selects nothing, and neither does a path that lacks its alias.
-/
namespace TableQuery.Selection
open Text Nesting

/-- One column, perhaps with the path it is an alias of. -/
def one (column : String) (aliases : List (String × String)) : Selection :=
  ⟨[column], false, [], aliases⟩

variable {path name : List Char}

def pathItem (hp : isFieldPath path = true) : WrittenItem := ⟨.path ⟨path, hp⟩, none⟩

theorem chars_pathItem (hp : isFieldPath path = true) : (pathItem hp).chars = path :=
  List.append_nil path

/-- A path with an alias, with single spaces between the words. -/
def aliasItem (hp : isFieldPath path = true) (hn : isName name = true) : WrittenItem :=
  have hspace : [' '] ≠ [] ∧ IsGap [' '] := ⟨List.cons_ne_nil _ _, isGap_space⟩
  ⟨.path ⟨path, hp⟩,
    some ⟨⟨[' '], hspace⟩, ⟨"AS".toList, by decide⟩, ⟨[' '], hspace⟩, ⟨name, hn⟩⟩⟩

theorem chars_aliasItem (hp : isFieldPath path = true) (hn : isName name = true) :
    (aliasItem hp hn).chars = path ++ " AS".toList ++ ' ' :: name :=
  Eq.symm (show path ++ " AS".toList ++ ' ' :: name = _ from List.append_assoc _ _ _)

theorem isTrimmed_alias (hp : isFieldPath path = true) (hn : isName name = true) :
    IsTrimmed (path ++ " AS".toList ++ ' ' :: name) :=
  chars_aliasItem hp hn ▸ (aliasItem hp hn).isItem_chars.trimmed

theorem isTrimmed_dangling (hp : isFieldPath path = true) : IsTrimmed (path ++ " AS".toList) :=
  (isTrimmed_of_isFieldPath hp).append (ne_nil_of_isFieldPath hp) (by decide) (by decide)

theorem addItem_dangling (hp : isFieldPath path = true) :
    addItem (empty false) (path ++ " AS".toList) =
      .error (.badSelectField (String.ofList (path ++ " AS".toList))) := by
  have hblank := isBlank_of_isFieldPath hp
  have hexpression : (word? "SA".toList (trimStart path.reverse)).bind blanks? = none := by
    rw [trimStart_of_head (isTrimmed_reverse.mpr (isTrimmed_of_isFieldPath hp)).1]
    cases hw : word? "SA".toList path.reverse with
    | none => rfl
    | some rest =>
      obtain ⟨a, ha, -⟩ := word?_eq_some_iff.mp hw
      cases rest with
      | nil => rfl
      | cons c rest =>
        have hc : c ∈ path := List.mem_reverse.mp (ha ▸ by simp)
        simp [blanks?, hblank c hc]
  have halias : aliased? (path ++ " AS".toList) = none := by
    have hname : isName "AS".toList = true := by decide
    have happend := aliased?_append isGap_space (List.cons_ne_nil _ _) hname path
    rw [hexpression] at happend
    exact happend
  have hplain : IsPlain (path ++ " AS".toList) :=
    isPlain_append.mpr ⟨isPlain_of_isFieldPath hp, by decide⟩
  have hcall := Call.read?_of_notMem (hplain.notMem (by decide) (by decide)) .select
  have hpath : isFieldPath (path ++ " AS".toList) = false := by
    rw [← Bool.not_eq_true]
    intro h
    exact absurd (isPathChar_of_isFieldPath h (c := ' ') (by simp)) (by decide)
  have hempty : (path ++ " AS".toList).isEmpty = false := by simp
  have hstar : (path ++ " AS".toList != ['*']) = true := by
    rw [bne_iff_ne]
    intro h
    have hmem : ' ' ∈ path ++ " AS".toList := by simp
    rw [h] at hmem
    exact absurd hmem (by decide)
  unfold addItem
  simp only [hempty, halias, hcall, hpath, hstar]
  simp [bind, Except.bind, throw, throwThe, MonadExceptOf.throw]

theorem isStar_one {column : String} (h : isFieldPath column.toList = true)
    (aliases : List (String × String)) : (one column aliases).isStar = false := by
  have hne : column ≠ "*" := by
    rintro rfl
    exact absurd h (by decide)
  simp [one, isStar, Ne.symm hne]

variable {s : Selection}

theorem read_path (hp : isFieldPath path = true) (h : Selection.read path = .ok s) :
    path.map Char.toUpper ≠ "DISTINCT".toList ∧ s = one (String.ofList path) [] := by
  have hd : path.map Char.toUpper ≠ "DISTINCT".toList := by
    intro hd
    have hafter := afterDistinct?_append hd wordEnds_nil
    have htrim := (isTrimmed_of_isFieldPath hp).trim_eq
    rw [List.append_nil] at hafter
    rw [read_eq (by rw [htrim]; exact ne_nil_of_isFieldPath hp), htrim, hafter] at h
    cases h
  have hread := WrittenList.read_item (pathItem hp) hd
  rw [chars_pathItem, h] at hread
  exact ⟨hd, Except.ok.inj hread⟩

theorem read_alias (hp : isFieldPath path = true) (hn : isName name = true)
    (hd : path.map Char.toUpper ≠ "DISTINCT".toList) :
    Selection.read (path ++ " AS".toList ++ ' ' :: name) =
      .ok (one (String.ofList name) [(String.ofList name, String.ofList path)]) := by
  rw [← chars_aliasItem hp hn]
  exact WrittenList.read_item (aliasItem hp hn) hd

theorem read_dangling (hp : isFieldPath path = true)
    (hd : path.map Char.toUpper ≠ "DISTINCT".toList) :
    Selection.read (path ++ " AS".toList) ≠ .ok s := by
  have hplain : IsPlain (path ++ " AS".toList) :=
    isPlain_append.mpr ⟨isPlain_of_isFieldPath hp, by decide⟩
  have hitem := hplain.isItem (isTrimmed_dangling hp)
  have hnone : ∀ entry ∈ ([] : List (Separator × List Char)), IsItem entry.2 := by simp
  have hsplit := splitCommas_separated hitem hnone .select
  rw [separated_nil] at hsplit
  have hends : NameEnds " AS".toList := by decide
  have hafter := afterDistinct?_eq_none (isBlank_of_isFieldPath hp) hends hd
  have htrim := hitem.trimmed.trim_eq
  rw [read_eq (by rw [htrim]; simp), htrim, hafter]
  intro h
  obtain ⟨-, items, hitems, hfold, -⟩ := readItems_eq_ok_iff.mp h
  cases hitems.symm.trans hsplit
  rw [List.foldlM_cons, addItem_dangling hp] at hfold
  cases hfold

end TableQuery.Selection
