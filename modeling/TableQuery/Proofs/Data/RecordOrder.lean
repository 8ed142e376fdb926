import Mathlib.Data.List.TakeWhile
import TableQuery.Proofs.Data.RecordFields

/-! # The order of the names of a record

A whole number is written by one name only, so the whole numbers among some names have one
ascending order. The names of a record that is made from fields are these, and behind them all
other names in the order of first entry.
-/
namespace TableQuery.Record
variable {α : Type}

theorem toNat_of_isDigit {c : Char} (h : c.isDigit = true) : 48 ≤ c.toNat ∧ c.toNat ≤ 57 :=
  Char.isDigit_iff_toNat.mp h

theorem toDigits_digit {c : Char} (h : c.isDigit = true) : Nat.toDigits 10 (c.toNat - 48) = [c] := by
  have hc := toNat_of_isDigit h
  have hsmall : c.toNat - 48 < 10 := by omega
  rw [Nat.toDigits_of_lt_base hsmall, List.singleton_inj]
  apply Char.toNat_inj.mp
  rw [Nat.toNat_digitChar_of_lt_ten hsmall]
  omega

theorem toDigits_append {cs : List Char} (h : ∀ c ∈ cs, c.isDigit = true) {n : Nat} (hn : 0 < n) :
    Nat.toDigits 10 n ++ cs =
      Nat.toDigits 10 (cs.foldl (fun n c => n * 10 + (c.toNat - 48)) n) := by
  induction cs generalizing n with
  | nil => simp
  | cons c cs ih =>
    obtain ⟨hc, hcs⟩ := List.forall_mem_cons.mp h
    have hsmall : c.toNat - 48 < 10 := by
      have hbounds := toNat_of_isDigit hc
      omega
    have hfirst := Nat.toDigits_append_toDigits (by decide : 1 < 10) hn hsmall
    rw [toDigits_digit hc, Nat.mul_comm] at hfirst
    rw [List.foldl_cons, ← ih hcs (by omega), ← hfirst, List.append_assoc]
    rfl

theorem toList_of_index? {name : String} {n : Nat} (h : index? name = some n) :
    name.toList = Nat.toDigits 10 n := by
  unfold index? at h
  dsimp only at h
  split at h
  · next hwhole =>
    obtain ⟨hne, hdigits, hzero, -⟩ := hwhole
    rw [List.all_eq_true] at hdigits
    cases hcs : name.toList with
    | nil => exact absurd hcs hne
    | cons c cs =>
      rw [hcs] at h hdigits hzero
      obtain ⟨hc, hcs⟩ := List.forall_mem_cons.mp hdigits
      have hbounds := toNat_of_isDigit hc
      by_cases h0 : c = '0'
      · have hcs : c :: cs = ['0'] := hzero.resolve_left (by simp [h0])
        rw [hcs] at h ⊢
        cases Option.some.inj h
        decide
      · have hpos : 0 < c.toNat - 48 := by
          have hne : c.toNat ≠ 48 := fun h => h0 (Char.toNat_inj.mp h)
          omega
        have hall := toDigits_append hcs hpos
        rw [toDigits_digit hc] at hall
        rw [← Option.some.inj h, List.foldl_cons, Nat.zero_mul, Nat.zero_add, ← hall]
        rfl
  · cases h

theorem index?_injective {a b : String} {n : Nat} (ha : index? a = some n)
    (hb : index? b = some n) : a = b :=
  String.toList_inj.mp ((toList_of_index? ha).trans (toList_of_index? hb).symm)

def isWhole (name : String) : Bool := (index? name).isSome

/-- The number that a name writes, zero if it is none. -/
def indexOf (name : String) : Nat := (index? name).getD 0

/-- The whole numbers among some names in ascending order, each once. -/
def wholeNames (names : List String) : List String :=
  (names.filter isWhole).eraseDups.mergeSort fun a b => indexOf a ≤ indexOf b

/-- The other names in the order of first entry, each once. -/
def otherNames (names : List String) : List String := (names.filter (!isWhole ·)).eraseDups

/-- The order in which a record holds names that are entered one after the other. -/
def keyOrder (names : List String) : List String := wholeNames names ++ otherNames names

theorem keyOrder_nil : keyOrder [] = [] := by simp [keyOrder, wholeNames, otherNames]

theorem index?_of_isWhole {name : String} (h : isWhole name = true) :
    index? name = some (indexOf name) := by
  obtain ⟨n, hn⟩ := Option.isSome_iff_exists.mp h
  simp [indexOf, hn]

theorem mem_wholeNames {names : List String} {name : String} :
    name ∈ wholeNames names ↔ name ∈ names ∧ isWhole name = true := by
  simp [wholeNames, List.mem_mergeSort, List.mem_eraseDups]

theorem mem_otherNames {names : List String} {name : String} :
    name ∈ otherNames names ↔ name ∈ names ∧ isWhole name = false := by
  simp [otherNames, List.mem_eraseDups]

theorem mem_keyOrder {names : List String} {name : String} : name ∈ keyOrder names ↔ name ∈ names := by
  rw [keyOrder, List.mem_append, mem_wholeNames, mem_otherNames]
  cases isWhole name <;> simp

theorem pairwise_wholeNames (names : List String) :
    (wholeNames names).Pairwise fun a b => indexOf a ≤ indexOf b := by
  have hsorted : (wholeNames names).Pairwise fun a b => decide (indexOf a ≤ indexOf b) = true :=
    List.pairwise_mergeSort (by simpa using fun _ _ _ => Nat.le_trans)
      (by simpa using fun _ _ => Nat.le_total _ _) _
  simpa only [decide_eq_true_eq] using hsorted

theorem comesAfter_of_isWhole {name other : String} (hname : isWhole name = true)
    (hother : isWhole other = true) :
    comesAfter name other = decide (indexOf other < indexOf name) := by
  simp [comesAfter, index?_of_isWhole hname, index?_of_isWhole hother]

theorem comesAfter_other {name other : String} (hname : isWhole name = true)
    (hother : isWhole other = false) : comesAfter name other = false := by
  have hnone : index? other = none := by simpa [isWhole] using hother
  simp [comesAfter, index?_of_isWhole hname, hnone]

theorem names_insert (r : Record α) (name : String) (a : α) : names (insert r name a) =
    (names r).takeWhile (comesAfter name) ++ name :: (names r).dropWhile (comesAfter name) := by
  unfold names insert
  rw [List.map_append, List.map_cons, List.takeWhile_map, List.dropWhile_map]
  rfl

section
variable {name other : String} {whole : List String}

theorem indexOf_le_of_mem_takeWhile (hname : isWhole name = true)
    (hwhole : ∀ other ∈ whole, isWhole other = true)
    (h : other ∈ whole.takeWhile (comesAfter name)) : indexOf other ≤ indexOf name := by
  have hcomes := List.mem_takeWhile_imp h
  rw [comesAfter_of_isWhole hname (hwhole other ((List.takeWhile_sublist _).subset h))] at hcomes
  exact Nat.le_of_lt (of_decide_eq_true hcomes)

/-- From the first one that does not come before a name on, no whole number is smaller. -/
theorem indexOf_le_of_mem_dropWhile (hname : isWhole name = true)
    (hwhole : ∀ other ∈ whole, isWhole other = true)
    (hsorted : whole.Pairwise fun a b => indexOf a ≤ indexOf b)
    (h : other ∈ whole.dropWhile (comesAfter name)) : indexOf name ≤ indexOf other := by
  have hhead := List.head?_dropWhile_not (comesAfter name) whole
  have hrest := List.dropWhile_sublist (comesAfter name) (l := whole)
  cases hdrop : whole.dropWhile (comesAfter name) with
  | nil => simp [hdrop] at h
  | cons first rest =>
    rw [hdrop] at hhead hrest h
    have hfirst : indexOf name ≤ indexOf first := by
      change comesAfter name first = false at hhead
      rw [comesAfter_of_isWhole hname (hwhole first (hrest.subset List.mem_cons_self))] at hhead
      simpa using hhead
    rcases List.mem_cons.mp h with rfl | h
    · exact hfirst
    · exact hfirst.trans (List.rel_of_pairwise_cons (hsorted.sublist hrest) h)

end

theorem pairwise_placed {name : String} (hname : isWhole name = true) (names : List String) :
    ((wholeNames names).takeWhile (comesAfter name) ++
      name :: (wholeNames names).dropWhile (comesAfter name)).Pairwise
        fun a b => indexOf a ≤ indexOf b := by
  have hsorted := pairwise_wholeNames names
  have hwhole : ∀ other ∈ wholeNames names, isWhole other = true :=
    fun other h => (mem_wholeNames.mp h).2
  have hparts := hsorted
  rw [← List.takeWhile_append_dropWhile (p := comesAfter name) (l := wholeNames names),
    List.pairwise_append] at hparts
  obtain ⟨hfront, hback, hcross⟩ := hparts
  refine List.pairwise_append.mpr ⟨hfront, List.pairwise_cons.mpr ⟨fun other hother => ?_, hback⟩, ?_⟩
  · exact indexOf_le_of_mem_dropWhile hname hwhole hsorted hother
  · intro a ha b hb
    rcases List.mem_cons.mp hb with rfl | hb
    · exact indexOf_le_of_mem_takeWhile hname hwhole ha
    · exact hcross a ha b hb

theorem wholeNames_concat {names : List String} {name : String} (hname : isWhole name = true)
    (hnew : name ∉ names) : wholeNames (names ++ [name]) =
      (wholeNames names).takeWhile (comesAfter name) ++
        name :: (wholeNames names).dropWhile (comesAfter name) := by
  have hfilter : ((names ++ [name]).filter isWhole).eraseDups =
      (names.filter isWhole).eraseDups ++ [name] := by
    rw [List.filter_append, List.filter_singleton, hname, cond_true, eraseDups_concat, if_neg]
    simp [hnew]
  have hparts : ((wholeNames names).takeWhile (comesAfter name) ++
      name :: (wholeNames names).dropWhile (comesAfter name)).Perm
        ((names.filter isWhole).eraseDups ++ [name]) := by
    refine List.perm_middle.trans (.trans (.cons name ?_) (List.perm_append_singleton _ _).symm)
    rw [List.takeWhile_append_dropWhile]
    exact List.mergeSort_perm _ _
  have hperm : (wholeNames (names ++ [name])).Perm ((wholeNames names).takeWhile (comesAfter name) ++
      name :: (wholeNames names).dropWhile (comesAfter name)) := by
    refine .trans ?_ hparts.symm
    rw [← hfilter]
    exact List.mergeSort_perm _ _
  refine hperm.eq_of_pairwise ?_ (pairwise_wholeNames _) (pairwise_placed hname names)
  intro a b ha hb hab hba
  have hwhole : isWhole b = true := (mem_wholeNames.mp (hperm.mem_iff.mpr hb)).2
  have hsame : indexOf a = indexOf b := Nat.le_antisymm hab hba
  exact index?_injective (index?_of_isWhole (mem_wholeNames.mp ha).2)
    (hsame ▸ index?_of_isWhole hwhole)

theorem span_append_of_neg {β : Type} {p : β → Bool} {ys : List β} (h : ∀ y ∈ ys, p y = false)
    (xs : List β) : (xs ++ ys).takeWhile p = xs.takeWhile p ∧
      (xs ++ ys).dropWhile p = xs.dropWhile p ++ ys := by
  induction xs with
  | nil =>
    cases ys with
    | nil => exact ⟨rfl, rfl⟩
    | cons y ys => simp [h y List.mem_cons_self]
  | cons x xs ih => cases hx : p x <;> simp [hx, ih]

theorem keyOrder_concat_of_mem {names : List String} {name : String} (h : name ∈ names) :
    keyOrder (names ++ [name]) = keyOrder names := by
  unfold keyOrder wholeNames otherNames
  cases hwhole : isWhole name <;>
    simp [List.filter_append, hwhole, eraseDups_concat, h]

theorem keyOrder_concat_of_notMem {names : List String} {name : String} (h : name ∉ names) :
    keyOrder (names ++ [name]) =
      (keyOrder names).takeWhile (comesAfter name) ++
        name :: (keyOrder names).dropWhile (comesAfter name) := by
  cases hwhole : isWhole name with
  | false =>
    have hlast : ∀ other ∈ keyOrder names, comesAfter name other = true := by
      intro other _
      have hnone : index? name = none := by simpa [isWhole] using hwhole
      simp [comesAfter, hnone]
    have hother : otherNames (names ++ [name]) = otherNames names ++ [name] := by
      simp [otherNames, List.filter_append, hwhole, eraseDups_concat, h]
    have hsame : wholeNames (names ++ [name]) = wholeNames names := by
      simp [wholeNames, List.filter_append, hwhole]
    rw [List.takeWhile_eq_self_iff.mpr hlast, List.dropWhile_eq_nil_iff.mpr hlast]
    unfold keyOrder
    rw [hother, hsame, List.append_assoc]
  | true =>
    have hother : otherNames (names ++ [name]) = otherNames names := by
      simp [otherNames, List.filter_append, hwhole]
    have hstop : ∀ other ∈ otherNames names, comesAfter name other = false :=
      fun other h => comesAfter_other hwhole (mem_otherNames.mp h).2
    obtain ⟨htake, hdrop⟩ := span_append_of_neg hstop (wholeNames names)
    unfold keyOrder
    rw [hother, wholeNames_concat hwhole h, htake, hdrop, List.append_assoc, List.cons_append]

theorem names_set {r : Record α} {before : List String} {name : String}
    (hr : names r = keyOrder before) (hproto : name ≠ "__proto__") (a : α) :
    names (set r name a) = keyOrder (before ++ [name]) := by
  have hmem : name ∈ names r ↔ name ∈ before := by rw [hr, mem_keyOrder]
  by_cases h : name ∈ before
  · rw [names_set_of_mem (hmem.mpr h), hr, keyOrder_concat_of_mem h]
  · have hnot : ¬ has r name = true := fun hhas => h (hmem.mp (has_iff.mp hhas))
    unfold set
    rw [if_neg hproto, if_neg hnot, names_insert, hr, keyOrder_concat_of_notMem h]

end TableQuery.Record
