import Mathlib.Data.List.Forall2
import Mathlib.Data.List.Perm.Basic
import TableQuery.Proofs.Sorting.Images
import TableQuery.Proofs.Sorting.StableSort

/-! # Consistent orders

A sort compares elements of its list only. So it is stable, and puts the same elements into one
order up to equal ones, whenever the comparison is consistent on the list. Rows are ordered
consistently where the values in each column of the order are.
-/
namespace TableQuery.Sorting
variable {α β : Type} {cmp : α → α → Ordering} {xs : List α}

section
variable [Std.TransCmp cmp] {a b : α} {ys : List α}

theorem isLevel_self (a : α) : isLevel cmp a a = true := beq_iff_eq.mpr Std.ReflCmp.compare_self

theorem isLevel_right (h : cmp a b = .eq) (c : α) : isLevel cmp c a = isLevel cmp c b :=
  congrArg (· == .eq) (Std.TransCmp.congr_right h)

/-- What has an equal in an ascending list does not come before its first element. -/
theorem Ascending.head_first (h : Ascending cmp (b :: xs))
    (ha : 0 < (b :: xs).countP (isLevel cmp a)) : isLess cmp a b = false := by
  obtain ⟨c, hc, hac⟩ := List.countP_pos_iff.mp ha
  have hcb : isLess cmp c b = false := by
    rcases List.mem_cons.mp hc with rfl | hc
    · exact not_isLess_self c
    · exact (List.pairwise_cons.mp h).1 c hc
  have hcongr : cmp a b = cmp c b := Std.TransCmp.congr_left (beq_iff_eq.mp hac)
  rwa [isLess, hcongr]

/-- Two ascending lists with as many equals of each element are equal place by place. -/
theorem Ascending.forall₂_eq (hxs : Ascending cmp xs) (hys : Ascending cmp ys)
    (hcount : ∀ a, xs.countP (isLevel cmp a) = ys.countP (isLevel cmp a)) :
    List.Forall₂ (fun a b => cmp a b = .eq) xs ys := by
  have hpos (a : α) (zs : List α) : 0 < (a :: zs).countP (isLevel cmp a) :=
    List.countP_pos_iff.mpr ⟨a, List.mem_cons_self, isLevel_self a⟩
  induction xs generalizing ys with
  | nil =>
    cases ys with
    | nil => exact .nil
    | cons y ys => exact absurd (hcount y) (Nat.ne_of_lt (hpos y ys))
  | cons x xs ih =>
    cases ys with
    | nil => exact absurd (hcount x) (Nat.ne_of_gt (hpos x xs))
    | cons y ys =>
      have hlevel : isLevel cmp x y = true := isLevel_iff.mpr
        ⟨hys.head_first (hcount x ▸ hpos x xs), hxs.head_first (hcount y ▸ hpos y ys)⟩
      refine .cons (beq_iff_eq.mp hlevel) (ih hxs.tail hys.tail fun a => ?_)
      have ha := hcount a
      rw [List.countP_cons, List.countP_cons, isLevel_right (beq_iff_eq.mp hlevel) a] at ha
      exact Nat.add_right_cancel ha

end

/-- A comparison that is consistent on the elements of a list. -/
structure Consistent (cmp : α → α → Ordering) (xs : List α) : Prop where
  swap : ∀ a ∈ xs, ∀ b ∈ xs, cmp a b = (cmp b a).swap
  trans : ∀ a ∈ xs, ∀ b ∈ xs, ∀ c ∈ xs, (cmp a b).isLE → (cmp b c).isLE → (cmp a c).isLE

theorem Consistent.of_map {f : β → α} {ys : List β} (h : Consistent cmp (ys.map f)) :
    Consistent (fun a b => cmp (f a) (f b)) ys where
  swap _ ha _ hb := h.swap _ (List.mem_map_of_mem ha) _ (List.mem_map_of_mem hb)
  trans _ ha _ hb _ hc := h.trans _ (List.mem_map_of_mem ha) _ (List.mem_map_of_mem hb) _
    (List.mem_map_of_mem hc)

section
variable (h : Consistent cmp xs)
include h

theorem Consistent.transCmp : Std.TransCmp fun a b : { x // x ∈ xs } => cmp a.1 b.1 where
  eq_swap := h.swap _ (Subtype.property _) _ (Subtype.property _)
  isLE_trans := h.trans _ (Subtype.property _) _ (Subtype.property _) _ (Subtype.property _)

theorem Consistent.then {cmp' : α → α → Ordering} (h' : Consistent cmp' xs) :
    Consistent (fun a b => (cmp a b).then (cmp' a b)) xs where
  swap a ha b hb := by
    rw [h.swap a ha b hb, h'.swap a ha b hb, Ordering.swap_then]
  trans a ha b hb c hc hab hbc := by
    have := h.transCmp
    have := h'.transCmp
    exact @Std.TransCmp.isLE_trans _
      (compareLex (fun a b : { x // x ∈ xs } => cmp a.1 b.1) fun a b => cmp' a.1 b.1) _
      ⟨a, ha⟩ ⟨b, hb⟩ ⟨c, hc⟩ hab hbc

theorem Consistent.exists_sorts {ys : List α} (hys : ys.Perm xs) :
    ∃ members sorted : List { x // x ∈ xs }, members.map Subtype.val = ys ∧
      Sorts (fun a b => cmp a.1 b.1) members sorted ∧ sort cmp ys = sorted.map Subtype.val := by
  have := h.transCmp
  have hmembers : (ys.attachWith (· ∈ xs) fun _ hy => hys.subset hy).map Subtype.val = ys :=
    List.attachWith_map_subtype_val _
  refine ⟨_, _, hmembers, sort_sorts _, ?_⟩
  rw [← sort_map, hmembers]

theorem Consistent.ascending_sort : Ascending cmp (sort cmp xs) := by
  obtain ⟨members, sorted, -, hsorts, hsort⟩ := h.exists_sorts (List.Perm.refl xs)
  rw [hsort]
  exact List.pairwise_map.mpr hsorts.ascending

theorem Consistent.filter_sort {a : α} (ha : a ∈ xs) :
    (sort cmp xs).filter (isLevel cmp a) = xs.filter (isLevel cmp a) := by
  obtain ⟨members, sorted, hmembers, hsorts, hsort⟩ := h.exists_sorts (List.Perm.refl xs)
  have hfilter (zs : List { x // x ∈ xs }) : (zs.map Subtype.val).filter (isLevel cmp a) =
      (zs.filter (isLevel (fun a b => cmp a.1 b.1) ⟨a, ha⟩)).map Subtype.val := List.filter_map
  rw [hsort, hfilter, hsorts.level, ← hfilter, hmembers]

/-- The same elements in another order are sorted to the same sequence, up to the order of equal
ones. -/
theorem Consistent.sort_of_perm {ys : List α} (hys : ys.Perm xs) :
    List.Forall₂ (fun a b => cmp a b = .eq) (sort cmp xs) (sort cmp ys) := by
  have : Std.TransCmp fun a b : { x // x ∈ xs } => cmp a.1 b.1 := h.transCmp
  obtain ⟨members, sorted, hmembers, hsorts, hsort⟩ := h.exists_sorts (List.Perm.refl xs)
  obtain ⟨members', sorted', hmembers', hsorts', hsort'⟩ := h.exists_sorts hys
  have hperm : members.Perm members' := by
    rw [← List.map_perm_map_iff Subtype.val_injective, hmembers, hmembers']
    exact hys.symm
  rw [hsort, hsort', List.forall₂_map_left_iff, List.forall₂_map_right_iff]
  refine hsorts.ascending.forall₂_eq hsorts'.ascending fun a => ?_
  rw [hsorts.countP_eq, hsorts'.countP_eq, hperm.countP_eq]

end

end TableQuery.Sorting

namespace TableQuery.Rows
open Sorting
variable {α : Type} {keys : List SortKey} {read : α → String → Value} {rows : List α}

theorem consistent_order
    (h : ∀ key ∈ keys, Consistent (Value.sortOrder key.direction) (rows.map (read · key.column))) :
    Consistent (order keys read) rows := by
  induction keys with
  | nil => exact ⟨fun _ _ _ _ => rfl, fun _ _ _ _ _ _ _ _ => rfl⟩
  | cons key keys ih =>
    obtain ⟨hkey, hkeys⟩ := List.forall_mem_cons.mp h
    exact hkey.of_map.then (ih hkeys)

theorem sort_eq (keys : List SortKey) (read : α → String → Value) (rows : List α) :
    sort keys read rows = Sorting.sort (order keys read) rows := by
  unfold sort
  split
  · next hkeys =>
    obtain rfl := List.isEmpty_iff.mp hkeys
    cases rows with
    | nil => rfl
    | cons row rows =>
      have hconsistent : Consistent (order [] read) (row :: rows) :=
        consistent_order (List.forall_mem_nil _)
      have hlevel := hconsistent.filter_sort List.mem_cons_self
      have hall (others : List α) : others.filter (isLevel (order [] read) row) = others :=
        List.filter_eq_self.mpr fun _ _ => rfl
      rw [hall, hall] at hlevel
      exact hlevel.symm
  · rfl

end TableQuery.Rows
