import TableQuery.Proofs.Number.Rank
import TableQuery.Proofs.Rows.Samples
import TableQuery.Proofs.Text.UnitOrder

/-! # The natural order of values

Two values have a natural order in both directions or in none. Lists are compared up to the first
difference, so what stands behind it may be without order. Where a value comes before a second one
or next to it, and the second so before a third, the first and the third are compared, and the
first two differences decide how.
-/
namespace TableQuery

/-- A comparison over a middle that comes last nowhere is decided by the first difference. -/
theorem eq_then_of_isLE {α : Type} {cmp : α → α → Ordering} [Std.TransCmp cmp] {a b c : α}
    (hab : (cmp a b).isLE = true) (hbc : (cmp b c).isLE = true) :
    cmp a c = (cmp a b).then (cmp b c) := by
  cases h : cmp a b with
  | lt => exact Std.TransCmp.lt_of_lt_of_isLE h hbc
  | eq => exact Std.TransCmp.congr_left h
  | gt =>
    rw [h] at hab
    cases hab

namespace Number
variable {x y z : Float}

theorem order_eq_then (hx : isNaN x = false) (hy : isNaN y = false) (hz : isNaN z = false)
    (hxy : (order x y).isLE = true) (hyz : (order y z).isLE = true) :
    order x z = (order x y).then (order y z) := by
  rw [order_eq hx hy] at hxy ⊢
  rw [order_eq hy hz] at hyz ⊢
  rw [order_eq hx hz]
  exact eq_then_of_isLE hxy hyz

theorem order_eq_eq_iff (hx : isNaN x = false) (hy : isNaN y = false) :
    order x y = .eq ↔ same x y = true := by
  rw [order_eq hx hy, Std.LawfulEqOrd.compare_eq_iff_eq]
  simp [same, hx, hy]

end Number

namespace Value

/-- Lists are compared by their first items and, where these are next to each other, by the rest. -/
theorem compareItems?_cons_iff {a b : Value} {as bs : List Value} {o : Ordering} :
    compareItems? (a :: as) (b :: bs) = some o ↔
      compare? a b = some .eq ∧ compareItems? as bs = some o ∨
        compare? a b = some o ∧ o ≠ .eq := by
  rw [compareItems?]
  cases compare? a b with
  | none => simp
  | some p => cases p <;> cases o <;> simp

theorem compareItems?_swap {as bs : List Value}
    (h : ∀ a ∈ as, ∀ b, compare? b a = (compare? a b).map Ordering.swap) :
    compareItems? bs as = (compareItems? as bs).map Ordering.swap := by
  induction as generalizing bs with
  | nil => cases bs <;> rfl
  | cons a as ih =>
    obtain ⟨hfirst, hrest⟩ := List.forall_mem_cons.mp h
    cases bs with
    | nil => rfl
    | cons b bs =>
      rw [compareItems?, compareItems?, hfirst b]
      cases compare? a b with
      | none => rfl
      | some o =>
        cases o with
        | eq => exact ih hrest
        | lt | gt => rfl

theorem compare?_swap (a b : Value) : compare? b a = (compare? a b).map Ordering.swap := by
  induction a using induction generalizing b with
  | int x | float x =>
    cases b with
    | int y | float y => exact congrArg some (Number.order_swap x y)
    | _ => rfl
  | string s =>
    cases b with
    | string t => exact congrArg some Std.OrientedCmp.eq_swap
    | _ => rfl
  | bool p =>
    cases b with
    | bool q => exact congrArg some Std.OrientedCmp.eq_swap
    | _ => rfl
  | list as ih =>
    cases b with
    | list bs => exact compareItems?_swap ih
    | _ => rfl
  | null | map => cases b <;> rfl

theorem compareItems?_eq_iff {as bs : List Value} {o : Ordering}
    (h : ∀ a ∈ as, ∀ b ∈ bs, ∀ o, compare? a b = some o → (o = .eq ↔ equal a b = true))
    (hab : compareItems? as bs = some o) : o = .eq ↔ equalItems as bs = true := by
  induction as generalizing bs with
  | nil =>
    cases bs with
    | nil => simp [equalItems, ← Option.some.inj hab]
    | cons b bs => simp [equalItems, ← Option.some.inj hab]
  | cons a as ih =>
    cases bs with
    | nil => simp [equalItems, ← Option.some.inj hab]
    | cons b bs =>
      have hfirst := h a List.mem_cons_self b List.mem_cons_self
      rw [equalItems, Bool.and_eq_true]
      rcases compareItems?_cons_iff.mp hab with ⟨heq, hrest⟩ | ⟨hdiff, hne⟩
      · rw [← hfirst _ heq, ih (fun a ha b hb => h a (List.mem_cons_of_mem _ ha) b
          (List.mem_cons_of_mem _ hb)) hrest]
        simp
      · rw [← hfirst o hdiff]
        exact ⟨fun heq => absurd heq hne, fun hboth => hboth.1⟩

theorem compare?_eq_iff {a b : Value} {o : Ordering} (ha : a.All NotNaN) (hb : b.All NotNaN)
    (hab : compare? a b = some o) : o = .eq ↔ equal a b = true := by
  induction a using induction generalizing b o with
  | int x | float x =>
    cases b with
    | int y | float y =>
      rw [← Option.some.inj hab]
      exact Number.order_eq_eq_iff (isNaN_of_number? ha.self rfl) (isNaN_of_number? hb.self rfl)
    | _ => cases hab
  | string s =>
    cases b with
    | string t =>
      rw [← Option.some.inj hab, equal, beq_iff_eq]
      exact Std.LawfulEqCmp.compare_eq_iff_eq
    | _ => cases hab
  | bool p =>
    cases b with
    | bool q =>
      rw [← Option.some.inj hab]
      cases p <;> cases q <;> decide
    | _ => cases hab
  | list as ih =>
    cases b with
    | list bs =>
      rw [all_list_iff] at ha hb
      exact compareItems?_eq_iff
        (fun a hmem b hmem' _ => ih a hmem (ha.2 a hmem) (hb.2 b hmem')) hab
    | _ => cases hab
  | null | map => cases b <;> cases hab

/-- Whether a value is compared with all that comes behind something it comes before. -/
def Chains (a : Value) : Prop :=
  ∀ b c : Value, b.All NotNaN → c.All NotNaN → ∀ o p : Ordering, compare? a b = some o →
    compare? b c = some p → o.isLE = true → p.isLE = true → compare? a c = some (o.then p)

theorem compareItems?_chain {as bs cs : List Value} (h : ∀ a ∈ as, a.Chains)
    (hbs : ∀ b ∈ bs, b.All NotNaN) (hcs : ∀ c ∈ cs, c.All NotNaN) {o p : Ordering}
    (hab : compareItems? as bs = some o) (hbc : compareItems? bs cs = some p)
    (ho : o.isLE = true) (hp : p.isLE = true) : compareItems? as cs = some (o.then p) := by
  induction as generalizing bs cs with
  | nil =>
    cases bs with
    | nil =>
      cases hab
      exact hbc
    | cons b bs =>
      cases hab
      cases cs with
      | nil =>
        cases hbc
        cases hp
      | cons c cs => rfl
  | cons a as ih =>
    cases bs with
    | nil =>
      cases hab
      cases ho
    | cons b bs =>
      cases cs with
      | nil =>
        cases hbc
        cases hp
      | cons c cs =>
        obtain ⟨hfirst, hrest⟩ := List.forall_mem_cons.mp h
        obtain ⟨hb, hbs⟩ := List.forall_mem_cons.mp hbs
        obtain ⟨hc, hcs⟩ := List.forall_mem_cons.mp hcs
        have hchain := hfirst b c hb hc
        rw [compareItems?_cons_iff]
        rcases compareItems?_cons_iff.mp hab with ⟨heq, hab⟩ | ⟨hlt, hne⟩
        · rcases compareItems?_cons_iff.mp hbc with ⟨heq', hbc⟩ | ⟨hlt', hne'⟩
          · exact .inl ⟨hchain _ _ heq heq' rfl rfl, ih hrest hbs hcs hab hbc⟩
          · -- the second list differs from the third where it agrees with the first
            obtain rfl : p = .lt := (Ordering.isLE_iff_eq_lt_or_eq_eq.mp hp).resolve_right hne'
            have hlast : o.then .lt = .lt := by
              rcases Ordering.isLE_iff_eq_lt_or_eq_eq.mp ho with rfl | rfl <;> rfl
            rw [hlast]
            exact .inr ⟨hchain .eq .lt heq hlt' rfl rfl, hne'⟩
        · obtain rfl : o = .lt := (Ordering.isLE_iff_eq_lt_or_eq_eq.mp ho).resolve_right hne
          rcases compareItems?_cons_iff.mp hbc with ⟨heq', -⟩ | ⟨hlt', -⟩
          · exact .inr ⟨hchain .lt .eq hlt heq' rfl rfl, hne⟩
          · exact .inr ⟨hchain .lt p hlt hlt' rfl hp, hne⟩

theorem chains {a : Value} (ha : a.All NotNaN) : a.Chains := by
  induction a using induction with
  | int x | float x =>
    intro b c hb hc o p hab hbc ho hp
    cases b with
    | int y | float y =>
      cases c with
      | int z | float z =>
        cases hab
        cases hbc
        exact congrArg some (Number.order_eq_then (isNaN_of_number? ha.self rfl)
          (isNaN_of_number? hb.self rfl) (isNaN_of_number? hc.self rfl) ho hp)
      | _ => cases hbc
    | _ => cases hab
  | string s =>
    intro b c _ _ o p hab hbc ho hp
    cases b with
    | string t =>
      cases c with
      | string u =>
        cases hab
        cases hbc
        exact congrArg some (eq_then_of_isLE ho hp)
      | _ => cases hbc
    | _ => cases hab
  | bool s =>
    intro b c _ _ o p hab hbc ho hp
    cases b with
    | bool t =>
      cases c with
      | bool u =>
        cases hab
        cases hbc
        exact congrArg some (eq_then_of_isLE ho hp)
      | _ => cases hbc
    | _ => cases hab
  | list as ih =>
    intro b c hb hc o p hab hbc ho hp
    cases b with
    | list bs =>
      cases c with
      | list cs =>
        rw [all_list_iff] at ha hb hc
        exact compareItems?_chain (fun a hmem => ih a hmem (ha.2 a hmem)) hb.2 hc.2 hab hbc ho hp
      | _ => cases hbc
    | _ => cases hab
  | null | map =>
    intro b c _ _ o p hab
    cases b <;> cases hab

/-- The natural order is consistent. Two values have one in both directions or in none, and then
the opposite one; it tells equal values from others; and it is transitive where it is defined,
which includes that the first value and the third have an order. -/
theorem compare?_consistent {a b c : Value} (ha : a.All NotNaN) (hb : b.All NotNaN)
    (hc : c.All NotNaN) :
    compare? b a = (compare? a b).map Ordering.swap ∧
    (∀ o, compare? a b = some o → (o = .eq ↔ equal a b = true)) ∧
    ∀ o p, compare? a b = some o → compare? b c = some p → o.isLE = true → p.isLE = true →
      compare? a c = some (o.then p) ∧ (o.then p).isLE = true := by
  refine ⟨compare?_swap a b, fun o => compare?_eq_iff ha hb, fun o p hab hbc ho hp => ?_⟩
  refine ⟨chains ha b c hb hc o p hab hbc ho hp, ?_⟩
  cases o with
  | lt => rfl
  | eq => exact hp
  | gt => cases ho

/-- A null behind the items of the first list is compared with nothing. -/
theorem compare?_consistent_prefix :
    let a : Value := .list [.int (Number.ofNat 1), .list [.string "x"]]
    let b : Value := .list [.float (Number.ofNat 1), .list [.string "x", .null]]
    let c : Value := .list [.int (Number.ofNat 1), .list [.string "y"], .map []]
    a.All NotNaN ∧ b.All NotNaN ∧ c.All NotNaN ∧ compare? a b = some .lt ∧
      compare? b c = some .lt ∧ compare? b a = some .gt ∧ equal a b = false ∧
      compare? a c = some .lt := by
  intro a b c
  have ha : a.All NotNaN := by decide +kernel
  have hb : b.All NotNaN := by decide +kernel
  have hc : c.All NotNaN := by decide +kernel
  have hab : compare? a b = some .lt := by decide +kernel
  have hbc : compare? b c = some .lt := by decide +kernel
  obtain ⟨hswap, hequal, hchain⟩ := compare?_consistent ha hb hc
  refine ⟨ha, hb, hc, hab, hbc, ?_, ?_, (hchain _ _ hab hbc rfl rfl).1⟩
  · rw [hswap, hab]
    rfl
  · exact Bool.eq_false_iff.mpr fun heq => Ordering.noConfusion ((hequal _ hab).mpr heq)

end Value
end TableQuery
