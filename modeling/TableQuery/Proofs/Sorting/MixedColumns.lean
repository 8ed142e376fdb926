import TableQuery.Proofs.Number.Rank
import TableQuery.Proofs.Rows.Samples
import TableQuery.Proofs.Sorting.ConsistentOrder
import TableQuery.Proofs.Text.UnitOrder

/-! # Columns of mixed kinds

A value that is not null has a place in a column: truth values and numbers by number, everything
else by text. A number and a text are compared by text, so a text tears a column where it
stands, by text, between two numbers that are in the other order by number. A column that no text
tears is ordered consistently, and only such a column is.
-/
namespace TableQuery
open Sorting

/-- Where a value stands in a column. -/
inductive Place where
  | number (x : Float)
  | text (s : String)

namespace Place

/-- The text by which a number and a text are compared. -/
def spelling : Place → String
  | number x => Number.text x
  | text s => s

def order : Place → Place → Ordering
  | number x, number y => Number.order x y
  | p, q => Text.order p.spelling q.spelling

/-- The order of a column in its direction, in which null comes last. -/
def orderLast (direction : Direction) : Option Place → Option Place → Ordering
  | none, none => .eq
  | none, some _ => .gt
  | some _, none => .lt
  | some p, some q =>
    match direction with
    | .ascending => p.order q
    | .descending => q.order p

/-- Whether a text stands between two numbers that are in the other order by number. -/
def tears : Place → Place → Place → Bool
  | number low, text s, number high =>
    Number.rank low < Number.rank high && (Text.order (Number.text high) s).isLE &&
      (Text.order s (Number.text low)).isLE
  | _, _, _ => false

def NotNaN : Place → Prop
  | number x => Number.isNaN x = false
  | text _ => True

variable {p q r : Place}

theorem order_swap (p q : Place) : q.order p = (p.order q).swap := by
  have hspelling : Text.order q.spelling p.spelling =
      (Text.order p.spelling q.spelling).swap := Std.OrientedCmp.eq_swap
  cases p with
  | text s => cases q <;> exact hspelling
  | number x =>
    cases q with
    | text t => exact hspelling
    | number y => exact Number.order_swap x y

section
variable {x y : Float} {s : String}

theorem rank_le_of_untorn (h : tears (number x) (text s) (number y) = false)
    (hys : (Text.order (Number.text y) s).isLE = true)
    (hsx : (Text.order s (Number.text x)).isLE = true) : Number.rank y ≤ Number.rank x := by
  by_contra hlt
  exact Bool.false_ne_true (h.symm.trans (by simp [tears, hys, hsx, Int.not_le.mp hlt]))

variable (hx : (number x).NotNaN) (hy : (number y).NotNaN)
  (hle : Number.rank x ≤ Number.rank y) (h : tears (number x) (text s) (number y) = false)
include hx hy hle h

theorem low_le_text (hys : (Text.order (Number.text y) s).isLE = true) :
    (Text.order (Number.text x) s).isLE = true := by
  rcases Bool.or_eq_true_iff.mp (Text.order_isLE_total (Number.text x) s) with hxs | hsx
  · exact hxs
  · have hrank := Int.le_antisymm hle (rank_le_of_untorn h hys hsx)
    rwa [Number.text_of_same (Number.same_of_rank_eq hx hy hrank)]

theorem text_le_high (hsx : (Text.order s (Number.text x)).isLE = true) :
    (Text.order s (Number.text y)).isLE = true := by
  rcases Bool.or_eq_true_iff.mp (Text.order_isLE_total s (Number.text y)) with hsy | hys
  · exact hsy
  · have hrank := Int.le_antisymm hle (rank_le_of_untorn h hys hsx)
    rwa [← Number.text_of_same (Number.same_of_rank_eq hx hy hrank)]

end

theorem order_trans (hp : p.NotNaN) (hq : q.NotNaN) (hr : r.NotNaN) (hprq : tears p r q = false)
    (hqpr : tears q p r = false) (hrqp : tears r q p = false) (hpq : (p.order q).isLE = true)
    (hqr : (q.order r).isLE = true) : (p.order r).isLE = true := by
  have hspelling : (Text.order p.spelling q.spelling).isLE = true →
      (Text.order q.spelling r.spelling).isLE = true →
      (Text.order p.spelling r.spelling).isLE = true := Std.TransCmp.isLE_trans
  cases p with
  | number x =>
    cases q with
    | number y =>
      have hxy := (Number.isLE_order_iff hp hq).mp hpq
      cases r with
      | number z =>
        exact (Number.isLE_order_iff hp hr).mpr
          (Int.le_trans hxy ((Number.isLE_order_iff hq hr).mp hqr))
      | text s => exact low_le_text hp hq hxy hprq hqr
    | text s =>
      cases r with
      | number z => exact (Number.isLE_order_iff hp hr).mpr (rank_le_of_untorn hrqp hpq hqr)
      | text t => exact hspelling hpq hqr
  | text s =>
    cases q with
    | number x =>
      cases r with
      | number y => exact text_le_high hq hr ((Number.isLE_order_iff hq hr).mp hqr) hqpr hpq
      | text t => exact hspelling hpq hqr
    | text t => cases r <;> exact hspelling hpq hqr

/-- A text that tears stands between the two numbers, which are in the other order. -/
theorem order_of_tears (hp : p.NotNaN) (hr : r.NotNaN) (h : tears p q r = true) :
    (r.order q).isLE = true ∧ (q.order p).isLE = true ∧ (r.order p).isLE = false := by
  rcases p with x | _ <;> rcases q with _ | s <;> rcases r with y | _
  case number.text.number =>
    simp only [tears, Bool.and_eq_true, decide_eq_true_eq] at h
    obtain ⟨⟨hrank, hys⟩, hsx⟩ := h
    refine ⟨hys, hsx, ?_⟩
    rw [← Bool.not_eq_true]
    exact fun hle => Int.not_le.mpr hrank ((Number.isLE_order_iff hr hp).mp hle)
  all_goals cases h

end Place

namespace Value

def place? : Value → Option Place
  | .null => none
  | .bool b => some (.number (Number.ofNat b.toNat))
  | .int x => some (.number x)
  | .float x => some (.number x)
  | .string s => some (.text s)
  | .list items => some (.text (Value.list items).text)
  | .map fields => some (.text (Value.map fields).text)

theorem sortForm_of_number {v : Value} {x : Float} (h : v.place? = some (.number x)) :
    v.sortForm = .int x ∨ v.sortForm = .float x := by
  cases v <;> cases h
  case float => exact .inr rfl
  all_goals exact .inl rfl

theorem sortForm_of_text {v : Value} {s : String} (h : v.place? = some (.text s)) :
    v.sortForm = .string s := by
  cases v <;> cases h <;> rfl

theorem looseOrder_sortForm {a b : Value} {p q : Place} (ha : a.place? = some p)
    (hb : b.place? = some q) : looseOrder a.sortForm b.sortForm = p.order q := by
  cases p with
  | number x =>
    cases q with
    | number y =>
      rcases sortForm_of_number ha with ha | ha <;> rcases sortForm_of_number hb with hb | hb <;>
        rw [ha, hb, looseOrder, compare?, Option.getD_some, Place.order]
    | text t =>
      rw [sortForm_of_text hb]
      rcases sortForm_of_number ha with ha | ha <;> rw [ha] <;> rfl
  | text s =>
    rw [sortForm_of_text ha]
    cases q with
    | number y => rcases sortForm_of_number hb with hb | hb <;> rw [hb] <;> rfl
    | text t => rw [sortForm_of_text hb]; rfl

theorem sortOrder_eq (direction : Direction) (a b : Value) :
    sortOrder direction a b = Place.orderLast direction a.place? b.place? := by
  have hnull (v : Value) : v.isNull = v.place?.isNone := by
    cases v <;> rfl
  unfold sortOrder
  rw [hnull, hnull]
  cases ha : a.place? with
  | none => cases b.place? <;> rfl
  | some p =>
    cases hb : b.place? with
    | none => rfl
    | some q =>
      dsimp only [Option.isNone]
      rw [looseOrder_sortForm ha hb]
      cases direction with
      | ascending => rfl
      | descending => exact (Place.order_swap p q).symm

theorem notNaN_of_place? {v : Value} {p : Place} (hv : v.NotNaN) (h : v.place? = some p) :
    p.NotNaN := by
  cases v <;> cases h
  case bool b => exact Number.isNaN_ofNat _
  case int x => exact isNaN_of_number? hv rfl
  case float x => exact isNaN_of_number? hv rfl
  all_goals trivial

def places (column : List Value) : List Place := column.filterMap place?

/-- Whether a text of a column stands, by text, between two numbers of the column that are in the
other order by number. -/
def Torn (column : List Value) : Prop :=
  ∃ low ∈ places column, ∃ s ∈ places column, ∃ high ∈ places column,
    Place.tears low s high = true

instance : DecidablePred Torn := fun _ => inferInstanceAs (Decidable (∃ _ ∈ _, _))

section
variable {column : List Value} {direction : Direction}

theorem mem_places {v : Value} {p : Place} (hv : v ∈ column) (h : v.place? = some p) :
    p ∈ places column := List.mem_filterMap.mpr ⟨v, hv, h⟩

theorem sortOrder_swap (direction : Direction) (a b : Value) :
    sortOrder direction b a = (sortOrder direction a b).swap := by
  rw [sortOrder_eq, sortOrder_eq]
  cases a.place? with
  | none => cases b.place? <;> rfl
  | some p =>
    cases b.place? with
    | none => rfl
    | some q => cases direction <;> exact Place.order_swap _ _

theorem consistent_of_untorn (hcolumn : ∀ v ∈ column, v.NotNaN) (h : ¬ Torn column) :
    Consistent (sortOrder direction) column where
  swap a _ b _ := sortOrder_swap direction b a
  trans a ha b hb c hc := by
    have huntorn {p q r : Place} (hp : p ∈ places column) (hq : q ∈ places column)
        (hr : r ∈ places column) : Place.tears p q r = false :=
      Bool.not_eq_true _ |>.mp fun htears => h ⟨p, hp, q, hq, r, hr, htears⟩
    rw [sortOrder_eq, sortOrder_eq, sortOrder_eq]
    cases hpa : a.place? with
    | none =>
      cases b.place? with
      | none => exact fun _ hbc => hbc
      | some q => intro hab; cases hab
    | some p =>
      cases hpc : c.place? with
      | none => exact fun _ _ => rfl
      | some r =>
        cases hpb : b.place? with
        | none => intro _ hbc; cases hbc
        | some q =>
          have hp := mem_places ha hpa
          have hq := mem_places hb hpb
          have hr := mem_places hc hpc
          have hpNaN := notNaN_of_place? (hcolumn a ha) hpa
          have hqNaN := notNaN_of_place? (hcolumn b hb) hpb
          have hrNaN := notNaN_of_place? (hcolumn c hc) hpc
          cases direction with
          | ascending =>
            exact Place.order_trans hpNaN hqNaN hrNaN (huntorn hp hr hq) (huntorn hq hp hr)
              (huntorn hr hq hp)
          | descending =>
            intro hab hbc
            exact Place.order_trans hrNaN hqNaN hpNaN (huntorn hr hp hq) (huntorn hq hr hp)
              (huntorn hp hq hr) hbc hab

theorem not_torn (hcolumn : ∀ v ∈ column, v.NotNaN)
    (h : ∀ a ∈ column, ∀ b ∈ column, ∀ c ∈ column, (sortOrder direction a b).isLE = true →
      (sortOrder direction b c).isLE = true → (sortOrder direction a c).isLE = true) :
    ¬ Torn column := by
  rintro ⟨p, hp, q, hq, r, hr, htears⟩
  obtain ⟨a, ha, hpa⟩ := List.mem_filterMap.mp hp
  obtain ⟨b, hb, hqb⟩ := List.mem_filterMap.mp hq
  obtain ⟨c, hc, hrc⟩ := List.mem_filterMap.mp hr
  obtain ⟨hcb, hba, hca⟩ := Place.order_of_tears (notNaN_of_place? (hcolumn a ha) hpa)
    (notNaN_of_place? (hcolumn c hc) hrc) htears
  simp only [sortOrder_eq] at h
  cases direction with
  | ascending =>
    have hle := h c hc b hb a ha
    rw [hpa, hqb, hrc] at hle
    exact Bool.false_ne_true (hca.symm.trans (hle hcb hba))
  | descending =>
    have hle := h a ha b hb c hc
    rw [hpa, hqb, hrc] at hle
    exact Bool.false_ne_true (hca.symm.trans (hle hba hcb))

end

end Value

namespace Rows
open Value

/-- The order of a column is a total preorder exactly if no text tears the column, and then rows
in any order are sorted to one sequence, up to the order of equal rows. -/
theorem preorder_iff_untorn (direction : Direction) (column : List Value)
    (hcolumn : ∀ v ∈ column, v.NotNaN) :
    (∀ a b : Value, sortOrder direction b a = (sortOrder direction a b).swap) ∧
      ((∀ a ∈ column, ∀ b ∈ column, ∀ c ∈ column, (sortOrder direction a b).isLE = true →
          (sortOrder direction b c).isLE = true → (sortOrder direction a c).isLE = true) ↔
        ¬ Torn column) ∧
      (¬ Torn column → ∀ (α : Type) (read : α → String → Value) (field : String)
        (rows others : List α), rows.map (read · field) = column → others.Perm rows →
          List.Forall₂ (fun a b => sortOrder direction (read a field) (read b field) = .eq)
            (sort [⟨field, direction⟩] read rows) (sort [⟨field, direction⟩] read others)) := by
  refine ⟨sortOrder_swap direction, ⟨not_torn hcolumn, ?_⟩, ?_⟩
  · intro h
    exact (consistent_of_untorn hcolumn h).trans
  · rintro h α read field rows others rfl hothers
    have hconsistent : Consistent (order [⟨field, direction⟩] read) rows :=
      consistent_order (List.forall_mem_singleton.mpr (consistent_of_untorn hcolumn h))
    rw [sort_eq, sort_eq]
    refine (hconsistent.sort_of_perm hothers).imp fun a b hab => ?_
    rwa [order, order, Ordering.then_eq] at hab

/-- Numbers, a truth value, a text behind all numbers, and null. -/
def untornColumn : List Value :=
  [.string "zinc", .int (Number.ofNat 10), .null, .bool true, .int (Number.ofNat 9)]

theorem preorder_iff_untorn_zinc : (∀ v ∈ untornColumn, v.NotNaN) ∧ ¬ Torn untornColumn ∧
    ∀ a ∈ untornColumn, ∀ b ∈ untornColumn, ∀ c ∈ untornColumn,
      (sortOrder .descending a b).isLE = true → (sortOrder .descending b c).isLE = true →
        (sortOrder .descending a c).isLE = true :=
  have hcolumn : ∀ v ∈ untornColumn, v.NotNaN := by decide +kernel
  have huntorn : ¬ Torn untornColumn := by decide +kernel
  ⟨hcolumn, huntorn, (preorder_iff_untorn .descending untornColumn hcolumn).2.1.mpr huntorn⟩

/-- The text 5 stands behind 10 and before 9. -/
theorem not_preorder_torn : ¬ ∀ (direction : Direction) (a b c : Value),
    a.NotNaN → b.NotNaN → c.NotNaN →
      sortOrder direction b a = (sortOrder direction a b).swap ∧
        ((sortOrder direction a b).isLE = true → (sortOrder direction b c).isLE = true →
          (sortOrder direction a c).isLE = true) := by
  intro h
  have htrans := (h .ascending (.int (Number.ofNat 10)) (.string "5") (.int (Number.ofNat 9))
    (by decide +kernel) (by decide +kernel) (by decide +kernel)).2
  exact absurd (htrans (by decide +kernel) (by decide +kernel)) (by decide +kernel)

end Rows
end TableQuery
