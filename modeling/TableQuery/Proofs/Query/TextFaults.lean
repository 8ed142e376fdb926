import TableQuery.Proofs.Data.Refusal
import TableQuery.Proofs.Query.SelectList
import TableQuery.Query.Statement

/-! # Faults of a text

Two faults say that a word stands in no table: that of an operator and that of an aggregate
function. No reader of a query's text refuses with one of these. What else is wrong with a text
is wrong with one of its items, or with its quotes and parentheses.
-/
namespace TableQuery
open Text

namespace Fault

/-- Whether a fault is in the text itself, and not that a table lacks a word. -/
def isOfText : Fault → Bool
  | unknownOperator _ | unknownAggregate _ => false
  | _ => true

/-- Whether a fault is in the text and has nothing to do with its quotes and parentheses. -/
def isOfItem : Fault → Bool
  | unknownOperator _ | unknownAggregate _ | unbalancedParentheses _ | unbalancedQuotes _ => false
  | _ => true

abbrev OfText {α : Type} (x : Except Fault α) : Prop := Refuses (·.isOfText = true) x

/-- A reading that finds no fault with quotes and parentheses. -/
abbrev OfItem {α : Type} (x : Except Fault α) : Prop := Refuses (·.isOfItem = true) x

/-- A reading whose faults are all in the text of a filter. -/
abbrev OfFilter {α : Type} (x : Except Fault α) : Prop :=
  Refuses (fun fault => fault.isOfText = true ∧ fault.clause = .filter) x

theorem isOfText_of_isOfItem {fault : Fault} (h : fault.isOfItem = true) :
    fault.isOfText = true := by
  cases fault <;> first | rfl | cases h

theorem refuses_throw {α β : Type} {P : Fault → Prop} {fault : Fault} {f : α → Except Fault β}
    (h : P fault) : Refuses P ((throw fault : Except Fault α) >>= f) := .error h

theorem ofText_fault (clause : Clause) (i : Imbalance) : (i.fault clause).isOfText = true := by
  cases i <;> rfl

theorem clause_fault (clause : Clause) (i : Imbalance) : (i.fault clause).clause = clause := by
  cases i <;> rfl

end Fault
open Fault

theorem ofText_requireBalance (clause : Clause) (cs : List Char) :
    OfText (requireBalance clause cs) := Refuses.mapError (Fault.ofText_fault clause)

theorem ofText_splitCommas (clause : Clause) (cs : List Char) : OfText (splitCommas clause cs) :=
  (ofText_requireBalance clause cs).bind fun _ => .ok _

theorem Call.ofItem_read? (clause : Clause) (cs : List Char) : OfItem (Call.read? clause cs) := by
  unfold Call.read?
  split
  · exact .ok _
  · split
    · exact .ok _
    · exact .ite (.ite (.ok _) (.error rfl)) (.ite (.ok _) (.error rfl))

theorem Selection.ofItem_addItem (s : Selection) (item : List Char) : OfItem (s.addItem item) := by
  unfold addItem
  refine .ite (refuses_throw rfl) ?_
  split
  · refine (Call.ofItem_read? _ _).bind fun call => ?_
    split
    · exact .ok _
    · exact .ite (refuses_throw rfl) (.ok _)
  · refine (Call.ofItem_read? _ _).bind fun call => ?_
    split
    · exact .ok _
    · exact .ite (refuses_throw rfl) (.ok _)

theorem Query.ofItem_readLimit (cs : List Char) : OfItem (readLimit cs) :=
  .ite (.ok _) (.error rfl)

namespace SortKey

theorem ofItem_column (expression : List Char) (direction : Direction) :
    OfItem (do
      match ← Call.read? .order expression with
      | some call => pure ⟨call.label, direction⟩
      | none =>
        if isFieldPath expression then pure ⟨String.ofList expression, direction⟩
        else throw (.badOrderField (String.ofList expression)) : Except Fault SortKey) := by
  refine (Call.ofItem_read? _ _).bind fun call => ?_
  split
  · exact .ok _
  · exact .ite (.ok _) (.error rfl)

theorem ofItem_readItem (item : List Char) : OfItem (readItem item) := by
  unfold readItem
  refine .ite (refuses_throw rfl) ?_
  dsimp only
  split
  · exact ofItem_column _ _
  · split
    · exact ofItem_column _ _
    · exact refuses_throw rfl

end SortKey

section
variable {P : Fault → Prop} (hitem : ∀ fault, fault.isOfItem = true → P fault) {cs : List Char}
include hitem

theorem Selection.refuses_readItems (hsplit : Refuses P (splitCommas .select cs))
    (distinct : Bool) : Refuses P (readItems distinct cs) := by
  unfold readItems
  refine .ite (refuses_throw (hitem _ rfl)) (hsplit.bind fun items => ?_)
  have hadd := Refuses.foldlM ofItem_addItem items (empty distinct)
  refine (hadd.imp hitem).bind fun s => ?_
  exact .ite (refuses_throw (hitem _ rfl)) (.ok _)

/-- The items of a select list are those behind the word DISTINCT, where it starts with it. -/
theorem Selection.refuses_read
    (hsplit : Refuses P (splitCommas .select ((afterDistinct? (trim cs)).getD (trim cs)))) :
    Refuses P (read cs) := by
  by_cases hempty : trim cs = []
  · unfold read
    rw [hempty]
    exact .error (hitem _ rfl)
  · rw [read_eq hempty]
    cases hafter : afterDistinct? (trim cs) with
    | none =>
      rw [hafter] at hsplit
      exact refuses_readItems hitem hsplit false
    | some rest =>
      rw [hafter] at hsplit
      exact refuses_readItems hitem hsplit true

theorem Query.refuses_readGroup (hsplit : Refuses P (splitCommas .group (trim cs))) :
    Refuses P (readGroup cs) := by
  unfold readGroup
  refine .ite (refuses_throw (hitem _ rfl)) (hsplit.bind fun _ => ?_)
  refine Refuses.mapM (fun field => ?_) _
  exact .ite (refuses_throw (hitem _ rfl)) (.ite (refuses_throw (hitem _ rfl)) (.ok _))

theorem SortKey.refuses_readList (hsplit : Refuses P (splitCommas .order (trim cs))) :
    Refuses P (readList cs) := by
  unfold readList
  refine .ite (refuses_throw (hitem _ rfl)) (hsplit.bind fun items => ?_)
  exact (Refuses.mapM ofItem_readItem items).imp hitem

end

namespace Outline

theorem isOfItem_of_misplaced? {clauses : List Clause} {fault : Fault}
    (h : misplaced? clauses = some fault) : fault.isOfItem = true := by
  induction clauses with
  | nil => cases h
  | cons first rest ih =>
    cases rest with
    | nil => cases h
    | cons second rest =>
      rw [misplaced?] at h
      split at h
      · cases h
        rfl
      · exact ih h

theorem refuses_ofQuery {P : Fault → Prop} (hitem : ∀ fault, fault.isOfItem = true → P fault)
    {query : String} (hbalance : Refuses P (requireBalance .query (body query))) :
    Refuses P (ofQuery query) := by
  unfold ofQuery
  refine .ite (refuses_throw (hitem _ rfl)) (hbalance.bind fun _ => ?_)
  split
  · split
    · next h => exact refuses_throw (hitem _ (isOfItem_of_misplaced? h))
    · exact .ite (refuses_throw (hitem _ rfl)) (.ite (refuses_throw (hitem _ rfl)) (.ok _))
  · exact .error (hitem _ rfl)

end Outline

theorem ofFilter_requireBalance (cs : List Char) : OfFilter (requireBalance .filter cs) :=
  Refuses.mapError fun i => ⟨ofText_fault .filter i, clause_fault .filter i⟩

theorem ofFilter_splitCommas (cs : List Char) : OfFilter (splitCommas .filter cs) :=
  (ofFilter_requireBalance cs).bind fun _ => .ok _

namespace Condition

theorem ofFilter_readComparison (cs : List Char) : OfFilter (readComparison cs) := by
  unfold readComparison
  refine (ofFilter_requireBalance cs).bind fun _ => ?_
  split
  · exact .error ⟨rfl, rfl⟩
  · refine .ite (refuses_throw ⟨rfl, rfl⟩) (.ite (refuses_throw ⟨rfl, rfl⟩) ?_)
    exact .ite (refuses_throw ⟨rfl, rfl⟩) (.ok _)

theorem ofFilter_readLiterals (cs : List Char) : OfFilter (Value.readLiterals cs) := by
  unfold Value.readLiterals
  exact .ite (.ok _) ((ofFilter_splitCommas _).bind fun _ => .ok _)

theorem ofFilter_of_readWorded? {cs : List Char} {x : Except Fault Condition}
    (h : readWorded? cs = some x) : OfFilter x := by
  unfold readWorded? at h
  split at h
  · cases h
  · dsimp only at h
    split at h
    · cases h
      exact .ok _
    · split at h
      · next condition hbetween =>
        cases h
        obtain ⟨_, _, hbounds⟩ := Option.bind_eq_some_iff.mp hbetween
        obtain ⟨_, _, rfl⟩ := Option.map_eq_some_iff.mp hbounds
        exact .ok _
      · obtain ⟨_, _, hinner⟩ := Option.bind_eq_some_iff.mp h
        obtain ⟨_, _, rfl⟩ := Option.map_eq_some_iff.mp hinner
        exact (ofFilter_readLiterals _).map _

theorem ofFilter_read (cs : List Char) : OfFilter (read cs) := by
  unfold read
  refine .ite (.error ⟨rfl, rfl⟩) ?_
  cases hworded : readWorded? (trim cs) with
  | none => exact ofFilter_readComparison (trim cs)
  | some x => exact ofFilter_of_readWorded? hworded

end Condition

theorem Filter.ofFilter_read (cs : List Char) : OfFilter (Filter.read cs) := by
  unfold Filter.read
  refine .ite (refuses_throw ⟨rfl, rfl⟩) ?_
  refine ((ofFilter_requireBalance _).bind fun _ => .ok _).bind fun parts => ?_
  refine (Condition.ofFilter_read _).bind fun first => ?_
  exact (Refuses.mapM (fun _ => (Condition.ofFilter_read _).map _) _).bind fun _ => .ok _

namespace Statement

theorem refuses_optional {α : Type} {P : Fault → Prop} {absent : α}
    {read : List Char → Except Fault α} {text? : Option String}
    (h : ∀ text ∈ text?, Refuses P (read text.toList)) : Refuses P (optional absent read text?) := by
  cases text? with
  | none => exact .ok _
  | some text => exact h text rfl

theorem ofText_read (query : String) : OfText (read query) := by
  have hitem (fault : Fault) : fault.isOfItem = true → fault.isOfText = true :=
    isOfText_of_isOfItem
  unfold read
  refine (Outline.refuses_ofQuery hitem (ofText_requireBalance _ _)).bind fun outline => ?_
  refine (Selection.refuses_read hitem (ofText_splitCommas _ _)).bind fun selection => ?_
  refine (refuses_optional fun _ _ => (Filter.ofFilter_read _).imp fun _ h => h.1).bind
    fun filter => ?_
  refine (refuses_optional fun _ _ => Query.refuses_readGroup hitem (ofText_splitCommas _ _)).bind
    fun group => ?_
  refine (refuses_optional fun _ _ => SortKey.refuses_readList hitem (ofText_splitCommas _ _)).bind
    fun order => ?_
  refine (refuses_optional fun _ _ => ?_).bind fun _ => .ok _
  exact ((Query.ofItem_readLimit _).imp hitem).map some

end Statement
end TableQuery
