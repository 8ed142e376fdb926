import TableQuery.Proofs.Filter.CompiledPattern
import TableQuery.Session.Execute

/-! # Stages that do not break off

A filter never breaks off, and the calls of a selection only at the name of an unknown
function, which no call has. So every stage gives the rows that it stands for.
-/
namespace TableQuery

namespace Rows

theorem ofName?_name (function : Aggregate) :
    Aggregate.ofName? function.name.toList = some function := by
  cases function <;> decide

theorem evaluateCall_eq_ok (call : Call) (rows : List Row) :
    evaluateCall call rows = .ok (summarize call rows) := by
  rw [evaluateCall, callNamed, ofName?_name]
  rfl

theorem evaluateCalls_eq_ok (calls : List (String × Call)) (rows : List Row) :
    evaluateCalls calls rows = .ok (callValues calls rows) := by
  simp only [evaluateCalls, evaluateCall_eq_ok]
  exact List.mapM_pure

theorem evaluateGroup_eq_ok (fields : List String) (calls : List (String × Call)) (first : Row)
    (members : List Row) : evaluateGroup fields calls first members =
      .ok (Group.ofMembers fields calls first members) := by
  rw [evaluateGroup, evaluateCalls_eq_ok]
  rfl

theorem evaluateGroups_eq_ok (fields : List String) (calls : List (String × Call))
    (rows : List Row) : evaluateGroups fields calls rows = .ok (groups fields calls rows) := by
  simp only [evaluateGroups, evaluateGroup_eq_ok]
  exact List.mapM_pure

theorem evaluateWhole_eq_ok (calls : List (String × Call)) (rows : List Row) :
    evaluateWhole calls rows = .ok (whole calls rows) := by
  cases rows with
  | nil => rfl
  | cons first rest =>
    rw [evaluateWhole, evaluateGroup_eq_ok]
    rfl

end Rows

namespace Statement

theorem evaluateFilter_eq_ok (s : Statement) (rows : List Row) :
    s.evaluateFilter rows = .ok (s.filtered rows) := by
  unfold evaluateFilter filtered
  cases hfilter : s.filter with
  | all =>
    have hkept : rows.filter (fun row => Filter.all.accepts row) = rows :=
      List.filter_eq_self.mpr fun _ _ => rfl
    rw [hkept]
    rfl
  | chain first rest =>
    rw [Filter.keep_eq_ok]
    rfl

theorem evaluateGroups_eq_ok (s : Statement) (rows : List Row) :
    s.evaluateGroups rows = .ok (s.groups rows) := by
  unfold evaluateGroups groups
  rw [Rows.evaluateWhole_eq_ok, Rows.evaluateGroups_eq_ok]
  cases s.group.isEmpty <;> rfl

theorem evaluateFound_eq_ok (s : Statement) (rows : List Row) :
    s.evaluateFound rows = .ok (s.found rows) := by
  unfold evaluateFound found
  rw [evaluateFilter_eq_ok]
  dsimp only [bind, Except.bind]
  rw [evaluateGroups_eq_ok]
  cases s.isGrouped <;> rfl

theorem evaluate_eq_ok (s : Statement) (limit : Float) (rows : List Row) :
    s.evaluate limit rows = .ok (s.answer limit rows) := by
  unfold evaluate
  rw [evaluateFound_eq_ok]
  rfl

end Statement
end TableQuery
