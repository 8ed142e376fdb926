import TableQuery.Proofs.Rows.GroupedRows

/-! # Repeated rows

A row is repeated when a row before it has equal values in the selected columns. What is left of
a table without repetition are the rows that are not repeated, in their order: each repeated row
has an equal one before it that is left, and nothing is repeated any more.
-/
namespace TableQuery

namespace Rows
variable {α : Type}

/-- Whether no row before a position agrees with a given one. -/
def isNew (same : α → α → Bool) (rows : List α) (i : Nat) (row : α) : Bool :=
  !(rows.take i).any fun other => same other row

def newRows (same : α → α → Bool) (rows : List α) : List α :=
  (rows.zipIdx.filter fun entry => isNew same rows entry.2 entry.1).map (·.1)

section
variable {same same' : α → α → Bool} {rows : List α} {i : Nat} {row : α}

theorem not_isNew_iff : isNew same rows i row = false ↔
    ∃ j other, j < i ∧ rows[j]? = some other ∧ same other row = true := by
  unfold isNew
  rw [Bool.not_eq_false', List.any_eq_true]
  constructor
  · rintro ⟨other, hother, hsame⟩
    obtain ⟨j, hj⟩ := List.mem_iff_getElem?.mp hother
    rw [List.getElem?_take] at hj
    split at hj
    · next hlt => exact ⟨j, other, hlt, hj, hsame⟩
    · cases hj
  · rintro ⟨j, other, hlt, hj, hsame⟩
    refine ⟨other, List.mem_iff_getElem?.mpr ⟨j, ?_⟩, hsame⟩
    rwa [List.getElem?_take, if_pos hlt]

theorem isNew_congr (h : rows.Pairwise fun a b => same a b = same' a b)
    (hrow : rows[i]? = some row) : isNew same rows i row = isNew same' rows i row := by
  unfold isNew
  rw [Bool.eq_iff_iff, Bool.not_eq_true', Bool.not_eq_true', List.any_eq_false, List.any_eq_false]
  obtain ⟨hi, rfl⟩ := List.getElem?_eq_some_iff.mp hrow
  rw [← List.take_append_drop i rows, List.pairwise_append] at h
  refine forall₂_congr fun other hother => ?_
  rw [h.2.2 other hother _ (List.drop_eq_getElem_cons hi ▸ List.mem_cons_self)]

theorem newRows_congr (h : rows.Pairwise fun a b => same a b = same' a b) :
    newRows same rows = newRows same' rows := by
  refine congrArg (List.map _) (List.filter_congr fun entry hentry => isNew_congr h ?_)
  exact List.mem_zipIdx_iff_getElem?.mp hentry

theorem isNew_of_newRows (h : newRows same rows = newRows same' rows)
    (hfiner : ∀ a b, same a b = true → same' a b = true) (hrow : rows[i]? = some row)
    (hnew : isNew same rows i row = true) : isNew same' rows i row = true := by
  have himp (entry : α × Nat) (h : isNew same' rows entry.2 entry.1 = true) :
      isNew same rows entry.2 entry.1 = true := by
    unfold isNew at h ⊢
    rw [Bool.not_eq_true', List.any_eq_false] at h ⊢
    exact fun other hother hsame => h other hother (hfiner _ _ hsame)
  have hsub := List.monotone_filter_right rows.zipIdx himp
  have hlength := congrArg List.length h
  unfold newRows at hlength
  rw [List.length_map, List.length_map] at hlength
  have hentry : (row, i) ∈ rows.zipIdx.filter fun entry => isNew same rows entry.2 entry.1 :=
    List.mem_filter.mpr ⟨List.mem_zipIdx_iff_getElem?.mpr hrow, hnew⟩
  rw [← hsub.eq_of_length hlength.symm] at hentry
  exact (List.mem_filter.mp hentry).2

theorem map_filter_tail (p : α × Nat → Bool) (rows : List α) :
    ((rows.zipIdx.map (Prod.map id (· + 1))).filter p).map (·.1) =
      (rows.zipIdx.filter fun entry => p (entry.1, entry.2 + 1)).map (·.1) := by
  rw [List.filter_map, List.map_map]
  rfl

end

section
variable (key : α → String) {rows : List α} {row : α}

theorem keepFirst_eq_filter (seen : List String) (rows : List α) :
    (keepFirst seen (rows.map fun row => (key row, row))).map (·.2) =
      (rows.zipIdx.filter fun entry => !seen.contains (key entry.1) &&
        isNew (fun a b => key a == key b) rows entry.2 entry.1).map (·.1) := by
  induction rows generalizing seen with
  | nil => rfl
  | cons row rows ih =>
    have hlater (i : Nat) (other : α) :
        isNew (fun a b => key a == key b) (row :: rows) (i + 1) other =
          (!(key row == key other) && isNew (fun a b => key a == key b) rows i other) := by
      unfold isNew
      rw [List.take_succ_cons, List.any_cons, Bool.not_or]
    rw [List.map_cons, keepFirst, List.zipIdx_cons', List.filter_cons]
    cases hseen : seen.contains (key row) with
    | true =>
      simp only [↓reduceIte, Bool.not_true, Bool.false_and, Bool.false_eq_true]
      rw [map_filter_tail, ih]
      refine congrArg _ (List.filter_congr fun entry _ => ?_)
      dsimp only
      rw [hlater]
      by_cases hkey : key row = key entry.1
      · rw [← hkey, hseen, Bool.not_true, Bool.false_and, Bool.false_and]
      · rw [beq_false_of_ne hkey, Bool.not_false, Bool.true_and]
    | false =>
      have hfirst : isNew (fun a b => key a == key b) (row :: rows) 0 row = true := rfl
      simp only [Bool.false_eq_true, ↓reduceIte, Bool.not_false, Bool.true_and, hfirst,
        List.map_cons]
      rw [map_filter_tail, ih]
      refine congrArg (row :: List.map _ ·) (List.filter_congr fun entry _ => ?_)
      dsimp only
      rw [hlater, List.contains_cons, Bool.not_or, Bool.beq_comm, Bool.and_assoc,
        Bool.and_left_comm]

theorem firstsBy_eq_newRows (rows : List α) :
    firstsBy key rows = newRows (fun a b => key a == key b) rows := by
  have h := keepFirst_eq_filter key [] rows
  simp only [List.contains_nil, Bool.not_false, Bool.true_and] at h
  exact h

theorem keepFirst_eq_self {seen : List String} {entries : List (String × α)}
    (hseen : ∀ entry ∈ entries, entry.1 ∉ seen) (h : entries.Pairwise fun a b => a.1 ≠ b.1) :
    keepFirst seen entries = entries := by
  induction entries generalizing seen with
  | nil => rfl
  | cons entry entries ih =>
    obtain ⟨hentry, hentries⟩ := List.forall_mem_cons.mp hseen
    obtain ⟨hne, htail⟩ := List.pairwise_cons.mp h
    rw [keepFirst, if_neg (by simpa using hentry), ih ?_ htail]
    intro other hother
    rw [List.mem_cons, not_or]
    exact ⟨(hne other hother).symm, hentries other hother⟩

theorem firstsBy_eq_self (h : rows.Pairwise fun a b => key a ≠ key b) :
    firstsBy key rows = rows := by
  unfold firstsBy
  rw [keepFirst_eq_self (fun _ _ => List.not_mem_nil) (List.pairwise_map.mpr h), List.map_map]
  exact List.map_id _

theorem exists_isNew {i : Nat} (h : rows[i]? = some row) : ∃ j first, j ≤ i ∧
    rows[j]? = some first ∧ isNew (fun a b => key a == key b) rows j first = true ∧
      key first = key row := by
  induction i using Nat.strongRecOn generalizing row with
  | ind i ih =>
    cases hnew : isNew (fun a b => key a == key b) rows i row with
    | true => exact ⟨i, row, Nat.le_refl i, h, hnew, rfl⟩
    | false =>
      obtain ⟨k, other, hk, hother, hkey⟩ := not_isNew_iff.mp hnew
      obtain ⟨j, first, hj, hfirst, hnew, hkey'⟩ := ih k hk hother
      exact ⟨j, first, by omega, hfirst, hnew, hkey'.trans (beq_iff_eq.mp hkey)⟩

end

end Rows

namespace Selection

/-- Whether two rows are equal in the selected columns, as a whole where these are the star. What is
no value is equal to nothing. -/
def agree (noted : Record.Noted) (s : Selection) (a b : Row) : Bool :=
  if s.columns = ["*"] then Value.equal (.map a) (.map b)
  else s.columns.all fun column =>
    (s.reading noted a column).any fun v => (s.reading noted b column).any v.equal

/-- Whether two rows agree where null stands for what is no value. -/
def alike (s : Selection) (a b : Row) : Bool :=
  if s.columns = ["*"] then Value.equal (.map a) (.map b)
  else s.columns.all fun column => Value.equal (s.valueOf a column) (s.valueOf b column)

def Readable (noted : Record.Noted) (s : Selection) (row : Row) : Prop :=
  s.columns ≠ ["*"] → ∀ column ∈ s.columns, (s.reading noted row column).isSome = true

theorem reading_eq_some {noted : Record.Noted} {s : Selection} {row : Row} {column : String}
    (h : (s.reading noted row column).isSome = true) :
    s.reading noted row column = some (s.valueOf row column) := by
  unfold reading at h ⊢
  split at h
  · cases h
  · next hread => rw [if_neg hread]

theorem agree_iff_alike {noted : Record.Noted} {s : Selection} {a b : Row} :
    s.agree noted a b = true ↔ s.Readable noted a ∧ s.Readable noted b ∧ s.alike a b = true := by
  unfold agree alike Readable
  by_cases hstar : s.columns = ["*"]
  · simp [hstar]
  · rw [if_neg hstar, if_neg hstar, List.all_eq_true, List.all_eq_true]
    simp only [hstar, ne_eq, not_false_eq_true, true_imp_iff, ← forall₂_and]
    refine forall₂_congr fun column _ => ?_
    cases ha : s.reading noted a column with
    | none => simp
    | some v =>
      cases hb : s.reading noted b column with
      | none => simp
      | some w =>
        have hv := reading_eq_some (ha ▸ rfl : (s.reading noted a column).isSome = true)
        have hw := reading_eq_some (hb ▸ rfl : (s.reading noted b column).isSome = true)
        rw [Option.some.inj (ha.symm.trans hv), Option.some.inj (hb.symm.trans hw)]
        simp

theorem keyable_valueOf (s : Selection) {row : Row} (h : row.Keyable) (column : String) :
    (s.valueOf row column).Keyable := by
  have hget {name : String} {v : Value} (hv : Record.get? row name = some v) : v.Keyable :=
    ⟨h.1.get? hv, h.2.get? hv⟩
  have hcolumn (name : String) : (row.column name).Keyable := by
    unfold Row.column
    cases hv : Record.get? row name with
    | none => exact Row.keyable_lookup h name
    | some v => exact hget hv
  unfold valueOf
  split
  · cases hv : Record.get? row column with
    | none => exact ⟨List.forall_mem_singleton.mpr rfl, List.forall_mem_singleton.mpr trivial⟩
    | some v => exact hget hv
  split
  · split
    · exact hcolumn column
    · exact hcolumn _
  · exact hcolumn column

theorem distinctKey_eq_iff {cs : List Char} {s : Selection} (hs : Selection.read cs = .ok s)
    {a b : Row} (ha : a.Keyable) (hb : b.Keyable) :
    Rows.distinctKey s a = Rows.distinctKey s b ↔ s.alike a b = true := by
  unfold Rows.distinctKey alike
  by_cases hstar : s.columns = ["*"]
  · rw [if_pos ((isStar_iff_of_read hs).mpr hstar), if_pos ((isStar_iff_of_read hs).mpr hstar),
      if_pos hstar, Value.tupleKey_eq_iff (List.forall_mem_singleton.mpr ha)
        (List.forall_mem_singleton.mpr hb)]
    simp
  · have hcolumns : ¬ s.isStar = true := fun h => hstar ((isStar_iff_of_read hs).mp h)
    rw [if_neg hcolumns, if_neg hcolumns, if_neg hstar, Value.tupleKey_eq_iff
      (List.forall_mem_map.mpr fun column _ => keyable_valueOf s ha column)
      (List.forall_mem_map.mpr fun column _ => keyable_valueOf s hb column),
      List.forall₂_map_left_iff, List.forall₂_map_right_iff, List.forall₂_same, List.all_eq_true]

end Selection

namespace Rows

/-- Exactly the rows are left that are new. Each other row agrees with a new one before it, no two
rows that are left agree, and they are all left again. -/
structure KeepsNew (noted : Record.Noted) (s : Selection) (rows : List Row) : Prop where
  kept : distinct s rows = newRows (s.agree noted) rows
  repeated : ∀ i row, rows[i]? = some row → isNew (s.agree noted) rows i row = false →
    ∃ j first, j < i ∧ rows[j]? = some first ∧ isNew (s.agree noted) rows j first = true ∧
      s.agree noted first row = true
  apart : (distinct s rows).Pairwise fun a b => s.agree noted a b = false
  again : distinct s (distinct s rows) = distinct s rows

/-- No row is left out for another one unless all that is read from both is a value. -/
def Comparable (noted : Record.Noted) (s : Selection) (rows : List Row) : Prop :=
  rows.Pairwise fun a b => s.alike a b = true → s.Readable noted a ∧ s.Readable noted b

section
variable {noted : Record.Noted} {s : Selection} {rows : List Row}

theorem keepsNew_of_pairwise (h : rows.Pairwise fun a b =>
    s.agree noted a b = (distinctKey s a == distinctKey s b)) : KeepsNew noted s rows := by
  refine ⟨(firstsBy_eq_newRows _ rows).trans (newRows_congr h).symm, ?_, ?_,
    firstsBy_eq_self _ (pairwise_distinct s rows)⟩
  · intro i row hrow hrepeated
    rw [isNew_congr h hrow] at hrepeated
    obtain ⟨k, other, hk, hother, hsame⟩ := not_isNew_iff.mp hrepeated
    obtain ⟨j, first, hj, hfirst, hnew, hkey⟩ := exists_isNew (distinctKey s) hother
    refine ⟨j, first, by omega, hfirst, (isNew_congr h hfirst).trans hnew, ?_⟩
    obtain ⟨hi, rfl⟩ := List.getElem?_eq_some_iff.mp hrow
    obtain ⟨hj', rfl⟩ := List.getElem?_eq_some_iff.mp hfirst
    rw [List.pairwise_iff_getElem.mp h j i hj' hi (by omega), hkey]
    exact hsame
  · refine (pairwise_distinct s rows).imp₂ ?_ (h.sublist (distinct_sublist s rows))
    intro a b hne hagree
    rw [hagree]
    exact beq_false_of_ne hne

variable (hkey : ∀ a ∈ rows, ∀ b ∈ rows,
  (distinctKey s a = distinctKey s b ↔ s.alike a b = true))
include hkey

theorem newRows_agree_of_keepsNew (h : KeepsNew noted s rows) :
    newRows (s.agree noted) rows = newRows s.alike rows := by
  rw [← h.kept]
  refine (firstsBy_eq_newRows _ rows).trans (newRows_congr ?_)
  refine List.pairwise_of_forall_mem_list fun a ha b hb => ?_
  rw [Bool.eq_iff_iff, beq_iff_eq]
  exact hkey a ha b hb

theorem exists_agree (h : KeepsNew noted s rows) {i j : Nat} {a b : Row} (hlt : i < j)
    (ha : rows[i]? = some a) (hb : rows[j]? = some b) (halike : s.alike a b = true) :
    ∃ k c, k < j ∧ rows[k]? = some c ∧ s.agree noted c b = true := by
  rw [← not_isNew_iff, ← Bool.not_eq_true]
  intro hnew
  have hnewAlike := isNew_of_newRows (newRows_agree_of_keepsNew hkey h)
    (fun _ _ hagree => (Selection.agree_iff_alike.mp hagree).2.2) hb hnew
  rw [not_isNew_iff.mpr ⟨i, a, hlt, ha, halike⟩] at hnewAlike
  cases hnewAlike

theorem readable_of_keepsNew (h : KeepsNew noted s rows) {j : Nat} {b : Row}
    (hb : rows[j]? = some b) {i : Nat} {a : Row} (hlt : i < j) (ha : rows[i]? = some a)
    (halike : s.alike a b = true) : s.Readable noted a ∧ s.Readable noted b := by
  induction j using Nat.strongRecOn generalizing b i a with
  | ind j ih =>
    obtain ⟨k, c, hk, hc, hagree⟩ := exists_agree hkey h hlt ha hb halike
    obtain ⟨hreadC, hreadB, halikeC⟩ := Selection.agree_iff_alike.mp hagree
    refine ⟨?_, hreadB⟩
    have hmemA := List.mem_of_getElem? ha
    have hmemB := List.mem_of_getElem? hb
    have hmemC := List.mem_of_getElem? hc
    have hsame : distinctKey s a = distinctKey s c :=
      ((hkey a hmemA b hmemB).mpr halike).trans ((hkey c hmemC b hmemB).mpr halikeC).symm
    rcases Nat.lt_trichotomy i k with hik | rfl | hki
    · exact (ih k hk hc hik ha ((hkey a hmemA c hmemC).mp hsame)).1
    · exact Option.some.inj (ha.symm.trans hc) ▸ hreadC
    · obtain ⟨_, _, -, -, hagree⟩ :=
        exists_agree hkey h hki hc ha ((hkey c hmemC a hmemA).mp hsame.symm)
      exact (Selection.agree_iff_alike.mp hagree).2.1

end

end Rows
end TableQuery
