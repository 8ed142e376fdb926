import TableQuery.Proofs.Sorting.MixedColumns
import TableQuery.Proofs.Sorting.Permutation

/-! # Sorted rows

Where each column of the order holds numbers and truth values only, or strings, lists and maps
only, the sort is the stable one for the lexicographic order of the columns: by number or by text,
each column in its direction, and null behind everything else.
-/
namespace TableQuery
open Sorting

namespace Place

/-- Whether a place comes before another: a number by its rank, a text by its units. -/
inductive Before : Place → Place → Prop
  | number {x y : Float} : Number.rank x < Number.rank y → Before (number x) (number y)
  | text {s t : String} : Text.units s < Text.units t → Before (text s) (text t)

def same : Place → Place → Bool
  | number x, number y => Number.rank x == Number.rank y
  | text s, text t => s == t
  | _, _ => false

/-- Whether two places are both numbers or both texts. -/
def alike : Place → Place → Prop
  | number x, number y => Number.isNaN x = false ∧ Number.isNaN y = false
  | text _, text _ => True
  | _, _ => False

variable {p q : Place}

theorem order_eq_lt_iff (h : alike p q) : p.order q = .lt ↔ p.Before q := by
  cases p with
  | number x =>
    cases q with
    | number y =>
      have horder : (number x).order (number y) = compare (Number.rank x) (Number.rank y) :=
        Number.order_eq h.1 h.2
      rw [horder, Std.compare_eq_lt]
      exact ⟨.number, fun | .number hless => hless⟩
    | text t => cases h
  | text s =>
    cases q with
    | number y => cases h
    | text t => exact Text.order_eq_lt_iff.trans ⟨.text, fun | .text hless => hless⟩

theorem order_eq_eq_iff (h : alike p q) : p.order q = .eq ↔ p.same q = true := by
  cases p with
  | number x =>
    cases q with
    | number y =>
      have horder : (number x).order (number y) = compare (Number.rank x) (Number.rank y) :=
        Number.order_eq h.1 h.2
      rw [horder, Std.compare_eq_iff_eq]
      exact beq_iff_eq.symm
    | text t => cases h
  | text s =>
    cases q with
    | number y => cases h
    | text t =>
      have horder : (text s).order (text t) = Text.order s t := rfl
      rw [horder, Std.LawfulEqCmp.compare_eq_iff_eq]
      exact beq_iff_eq.symm

end Place

namespace Value

/-- Whether a value is null, a truth value, or a number that is not NaN. -/
def isMeasured : Value → Bool
  | .null | .bool _ => true
  | .int x | .float x => !Number.isNaN x
  | _ => false

/-- Whether a value is null, a string, a list, or a map. -/
def isSpelled : Value → Bool
  | .null | .string _ | .list _ | .map _ => true
  | _ => false

/-- Whether the values of a column that are not null are ordered by number only, or by text
only. -/
def Uniform (column : List Value) : Prop :=
  (∀ v ∈ column, v.isMeasured = true) ∨ (∀ v ∈ column, v.isSpelled = true)

instance : DecidablePred Uniform := fun _ => inferInstanceAs (Decidable (_ ∨ _))

/-- Whether a value comes before another in a column. -/
inductive Precedes : Direction → Value → Value → Prop
  | ascending {a b : Value} {p q : Place} : a.place? = some p → b.place? = some q → p.Before q →
      Precedes .ascending a b
  | descending {a b : Value} {p q : Place} : a.place? = some p → b.place? = some q → q.Before p →
      Precedes .descending a b
  | null {direction : Direction} {a : Value} {p : Place} : a.place? = some p →
      Precedes direction a .null

/-- Whether two values have the same place in a column. -/
def isLevel (a b : Value) : Bool :=
  match a.place?, b.place? with
  | none, none => true
  | some p, some q => p.same q
  | _, _ => false

variable {column : List Value} {direction : Direction} {a b v : Value} {p q : Place}

theorem eq_null_of_place? (h : v.place? = none) : v = .null := by
  cases v with
  | null => rfl
  | _ => cases h

theorem place?_of_isMeasured (h : v.isMeasured = true) (hp : v.place? = some p) :
    ∃ x, p = .number x ∧ Number.isNaN x = false := by
  cases v with
  | null => cases hp
  | bool b =>
    cases hp
    exact ⟨_, rfl, Number.isNaN_ofNat _⟩
  | int x =>
    cases hp
    exact ⟨x, rfl, Bool.not_eq_true' _ |>.mp h⟩
  | float x =>
    cases hp
    exact ⟨x, rfl, Bool.not_eq_true' _ |>.mp h⟩
  | _ => cases h

theorem place?_of_isSpelled (h : v.isSpelled = true) (hp : v.place? = some p) :
    ∃ s, p = .text s := by
  cases v with
  | string | list | map =>
    cases hp
    exact ⟨_, rfl⟩
  | null => cases hp
  | _ => cases h

section
variable (h : Uniform column)
include h

theorem Uniform.alike (ha : a ∈ column) (hb : b ∈ column) (hp : a.place? = some p)
    (hq : b.place? = some q) : p.alike q := by
  rcases h with h | h
  · obtain ⟨x, rfl, hx⟩ := place?_of_isMeasured (h a ha) hp
    obtain ⟨y, rfl, hy⟩ := place?_of_isMeasured (h b hb) hq
    exact ⟨hx, hy⟩
  · obtain ⟨s, rfl⟩ := place?_of_isSpelled (h a ha) hp
    obtain ⟨t, rfl⟩ := place?_of_isSpelled (h b hb) hq
    trivial

theorem Uniform.notNaN (hv : v ∈ column) : v.NotNaN := by
  cases v with
  | int x => exact Bool.not_eq_true' _ |>.mpr (h.alike hv hv rfl rfl).1
  | float x => exact Bool.not_eq_true' _ |>.mpr (h.alike hv hv rfl rfl).1
  | _ => rfl

theorem Uniform.untorn : ¬ Torn column := by
  rintro ⟨p, hp, q, hq, r, -, htears⟩
  obtain ⟨a, ha, hp⟩ := List.mem_filterMap.mp hp
  obtain ⟨b, hb, hq⟩ := List.mem_filterMap.mp hq
  have halike := h.alike ha hb hp hq
  cases p with
  | text s => cases htears
  | number x =>
    cases q with
    | number y => cases htears
    | text t => cases halike

theorem Uniform.consistent : Consistent (sortOrder direction) column :=
  consistent_of_untorn (fun _ => h.notNaN) h.untorn

theorem Uniform.sortOrder_lt_iff (ha : a ∈ column) (hb : b ∈ column) :
    sortOrder direction a b = .lt ↔ Precedes direction a b := by
  rw [sortOrder_eq]
  cases hp : a.place? with
  | none =>
    have hnone : Place.orderLast direction none b.place? ≠ .lt := by cases b.place? <;> nofun
    refine iff_of_false hnone ?_
    rintro (⟨h, -, -⟩ | ⟨h, -, -⟩ | h) <;> cases hp.symm.trans h
  | some p =>
    cases hq : b.place? with
    | none =>
      obtain rfl := eq_null_of_place? hq
      exact iff_of_true rfl (.null hp)
    | some q =>
      cases direction with
      | ascending =>
        refine (Place.order_eq_lt_iff (h.alike ha hb hp hq)).trans ⟨.ascending hp hq, ?_⟩
        rintro (⟨h, h', hbefore⟩ | _ | _)
        · obtain rfl := Option.some.inj (hp.symm.trans h)
          obtain rfl := Option.some.inj (hq.symm.trans h')
          exact hbefore
        · cases hq
      | descending =>
        refine (Place.order_eq_lt_iff (h.alike hb ha hq hp)).trans ⟨.descending hp hq, ?_⟩
        rintro (_ | ⟨h, h', hbefore⟩ | _)
        · obtain rfl := Option.some.inj (hp.symm.trans h)
          obtain rfl := Option.some.inj (hq.symm.trans h')
          exact hbefore
        · cases hq

theorem Uniform.sortOrder_eq_iff (ha : a ∈ column) (hb : b ∈ column) :
    sortOrder direction a b = .eq ↔ isLevel a b = true := by
  rw [sortOrder_eq, isLevel]
  cases hp : a.place? with
  | none => cases b.place? <;> simp [Place.orderLast]
  | some p =>
    cases hq : b.place? with
    | none => simp [Place.orderLast]
    | some q =>
      cases direction with
      | ascending => exact Place.order_eq_eq_iff (h.alike ha hb hp hq)
      | descending =>
        have hswap : q.order p = (p.order q).swap := Place.order_swap p q
        have hlast : Place.orderLast .descending (some p) (some q) = q.order p := rfl
        rw [hlast, hswap, Ordering.swap_eq_eq]
        exact Place.order_eq_eq_iff (h.alike ha hb hp hq)

end

end Value

namespace Rows
variable {α : Type} {keys : List SortKey} {read : α → String → Value} {rows : List α} {a b : α}

/-- Whether a row comes before another: it does so in a column, and the two are level in all
columns before that one. -/
inductive Precedes (read : α → String → Value) : List SortKey → α → α → Prop
  | here {key : SortKey} {keys : List SortKey} {a b : α} :
      Value.Precedes key.direction (read a key.column) (read b key.column) →
      Precedes read (key :: keys) a b
  | later {key : SortKey} {keys : List SortKey} {a b : α} :
      Value.isLevel (read a key.column) (read b key.column) = true → Precedes read keys a b →
      Precedes read (key :: keys) a b

def areLevel (keys : List SortKey) (read : α → String → Value) (a b : α) : Bool :=
  keys.all fun key => Value.isLevel (read a key.column) (read b key.column)

section
variable (h : ∀ key ∈ keys, Value.Uniform (rows.map (read · key.column)))
include h

theorem order_lt_iff (ha : a ∈ rows) (hb : b ∈ rows) :
    order keys read a b = .lt ↔ Precedes read keys a b := by
  induction keys with
  | nil => exact iff_of_false nofun nofun
  | cons key keys ih =>
    obtain ⟨hkey, hkeys⟩ := List.forall_mem_cons.mp h
    have ha' : read a key.column ∈ rows.map (read · key.column) := List.mem_map_of_mem ha
    have hb' : read b key.column ∈ rows.map (read · key.column) := List.mem_map_of_mem hb
    rw [order, Ordering.then_eq_lt, hkey.sortOrder_lt_iff ha' hb', hkey.sortOrder_eq_iff ha' hb',
      ih hkeys]
    constructor
    · rintro (hhere | ⟨hlevel, hlater⟩)
      · exact .here hhere
      · exact .later hlevel hlater
    · rintro (hhere | ⟨hlevel, hlater⟩)
      · exact .inl hhere
      · exact .inr ⟨hlevel, hlater⟩

theorem order_eq_iff (ha : a ∈ rows) (hb : b ∈ rows) :
    order keys read a b = .eq ↔ areLevel keys read a b = true := by
  unfold areLevel
  induction keys with
  | nil => exact iff_of_true rfl rfl
  | cons key keys ih =>
    obtain ⟨hkey, hkeys⟩ := List.forall_mem_cons.mp h
    rw [order, Ordering.then_eq_eq, ih hkeys, List.all_cons, Bool.and_eq_true,
      hkey.sortOrder_eq_iff (List.mem_map_of_mem ha) (List.mem_map_of_mem hb)]

/-- The sort is a stable one for the lexicographic order of the columns. -/
theorem sort_stable : (sort keys read rows).Perm rows ∧
    (sort keys read rows).Pairwise (fun a b => ¬ Precedes read keys b a) ∧
    ∀ row ∈ rows, (sort keys read rows).filter (areLevel keys read row) =
      rows.filter (areLevel keys read row) := by
  have hperm := sort_perm keys read rows
  have hconsistent : Consistent (order keys read) rows :=
    consistent_order fun key hkey => (h key hkey).consistent
  refine ⟨hperm, ?_, fun row hrow => ?_⟩
  · have hascending := hconsistent.ascending_sort
    rw [← sort_eq] at hascending
    refine hascending.imp_of_mem fun {a b} ha hb hnot hprecedes => ?_
    have hlt := (order_lt_iff h (hperm.subset hb) (hperm.subset ha)).mpr hprecedes
    exact Bool.false_ne_true (hnot.symm.trans (isLess_iff.mpr hlt))
  · have hlevel := hconsistent.filter_sort hrow
    have hcongr (others : List α) (hothers : ∀ other ∈ others, other ∈ rows) :
        others.filter (areLevel keys read row) =
          others.filter (Sorting.isLevel (order keys read) row) := by
      refine List.filter_congr fun other hother => ?_
      rw [Bool.eq_iff_iff, ← order_eq_iff h hrow (hothers other hother)]
      exact beq_iff_eq.symm
    rw [hcongr _ fun _ hother => hperm.subset hother, hcongr rows fun _ => id, sort_eq, hlevel]

end

/-- Rows with a column of numbers and truth values and a column of strings and lists. -/
def measuredRows : List Row :=
  [[("a", .int (Number.ofNat 2)), ("b", .string "x")], [("a", .bool true)],
    [("a", .null), ("b", .list [.string "x"])],
    [("a", .float (Number.ofNat 1)), ("b", .string "x")]]

theorem sort_stable_measured :
    (∀ key ∈ [SortKey.mk "b" .descending, ⟨"a", .ascending⟩],
      Value.Uniform (measuredRows.map (Row.lookup · key.column))) ∧
    ∀ row ∈ measuredRows,
      (sort [⟨"b", .descending⟩, ⟨"a", .ascending⟩] Row.lookup measuredRows).filter
        (areLevel [⟨"b", .descending⟩, ⟨"a", .ascending⟩] Row.lookup row) =
      measuredRows.filter (areLevel [⟨"b", .descending⟩, ⟨"a", .ascending⟩] Row.lookup row) :=
  have h : ∀ key ∈ [SortKey.mk "b" .descending, ⟨"a", .ascending⟩],
      Value.Uniform (measuredRows.map (Row.lookup · key.column)) := by decide +kernel
  ⟨h, (sort_stable h).2.2⟩

end Rows
end TableQuery
