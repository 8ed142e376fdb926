import TableQuery.Proofs.Number.Bounds
import TableQuery.Proofs.Session.Outcome
import TableQuery.Proofs.Session.ShownRows

/-! # Limited results

A limit keeps the first rows of the result that would be returned without it, and changes
nothing else: neither what can go wrong nor what a row shows. Of the limit of a query and a
positive limit of its caller the smaller one counts.
-/
namespace TableQuery

namespace Limit

/-- How many rows the limit of a query allows, if it is one: a query can write a number that is
too large for a double. -/
def ofQuery? : Option Float → Option Nat
  | none => none
  | some x =>
    if Number.magnitude x = Number.infiniteWord then none
    else some (Number.wholePart (Number.magnitude x))

/-- How many rows the limit of a query and that of its caller, a whole number, allow together. -/
def allowed? (limit : Option Float) (m : Float) : Option Nat :=
  if Number.toInt m ≤ 0 then ofQuery? limit
  else
    match ofQuery? limit with
    | none => some (Number.toInt m).toNat
    | some n => some (min n (Number.toInt m).toNat)

def firstRows {α : Type} (k : Option Nat) (rows : List α) : List α :=
  match k with
  | none => rows
  | some n => rows.take n

theorem ofQuery?_infinite {x : Float} (h : Number.magnitude x = Number.infiniteWord) :
    ofQuery? (some x) = none := if_pos h

theorem ofQuery?_finite {x : Float} (h : Number.magnitude x ≠ Number.infiniteWord) :
    ofQuery? (some x) = some (Number.wholePart (Number.magnitude x)) := if_neg h

theorem cut_eq_firstRows {α : Type} (limit : Option Float) (rows : List α) :
    cut limit rows = firstRows (ofQuery? limit) rows := by
  cases limit with
  | none => rfl
  | some x =>
    unfold cut
    dsimp only
    by_cases hinfinite : Number.magnitude x = Number.infiniteWord
    · rw [if_pos (beq_iff_eq.mpr hinfinite), ofQuery?_infinite hinfinite, firstRows]
    · rw [if_neg (fun hbeq => hinfinite (beq_iff_eq.mp hbeq)), ofQuery?_finite hinfinite, firstRows]

theorem map_firstRows {α β : Type} (f : α → β) (k : Option Nat) (rows : List α) :
    (firstRows k rows).map f = firstRows k (rows.map f) := by
  cases k with
  | none => rfl
  | some n => exact List.map_take

/-- A limit that a query can write: it has no sign, and is a number or infinite. -/
structure Written (x : Float) : Prop where
  positive : Number.isNegative x = false
  bounded : Number.magnitude x ≤ Number.infiniteWord

theorem ofQuery?_least {x m : Float} (hx : Written x) (hfinite : Number.isFinite m = true)
    (hm : Number.isNegative m = false) :
    ofQuery? (some (Number.least x m)) =
      match ofQuery? (some x) with
      | none => some (Number.wholePart (Number.magnitude m))
      | some n => some (min n (Number.wholePart (Number.magnitude m))) := by
  have hless : Number.magnitude m < Number.infiniteWord := of_decide_eq_true hfinite
  have hnumber : Number.isNaN x = false := decide_eq_false (Nat.not_lt.mpr hx.bounded)
  unfold Number.least Number.signedRank
  rw [hnumber, Number.isNaN_of_isFinite hfinite, hx.positive, hm]
  simp only [Bool.false_eq_true, ↓reduceIte, Int.ofNat_le]
  by_cases hsmaller : Number.magnitude x ≤ Number.magnitude m
  · have hallowed := Number.wholePart_mono hsmaller
    rw [if_pos hsmaller, ofQuery?_finite (Nat.ne_of_lt (hsmaller.trans_lt hless))]
    exact congrArg some (Nat.min_eq_left hallowed).symm
  · rw [if_neg hsmaller, ofQuery?_finite (Nat.ne_of_lt hless)]
    by_cases hinfinite : Number.magnitude x = Number.infiniteWord
    · rw [ofQuery?_infinite hinfinite]
    · have hallowed := Number.wholePart_mono (Nat.le_of_not_le hsmaller)
      rw [ofQuery?_finite hinfinite]
      exact congrArg some (Nat.min_eq_right hallowed).symm

theorem ofQuery?_effective {limit : Option Float} (hlimit : ∀ x ∈ limit, Written x) {m : Float}
    (hm : Number.isIntegral m = true) : ofQuery? (effective limit m) = allowed? limit m := by
  have hfinite := (Bool.and_eq_true_iff.mp hm).1
  unfold allowed? effective
  by_cases hpositive : 0 < Number.toInt m
  · have horder := (Number.toInt_pos_iff hm).mp hpositive
    have hsign := Number.isNegative_of_toInt_pos hpositive
    have hvalue : Number.toInt m = Number.wholePart (Number.magnitude m) := by
      unfold Number.toInt
      rw [hsign]
      rfl
    rw [horder, if_neg (Int.not_le.mpr hpositive), hvalue, Int.toNat_natCast]
    cases limit with
    | none =>
      have hless : Number.magnitude m < Number.infiniteWord := of_decide_eq_true hfinite
      exact ofQuery?_finite (Nat.ne_of_lt hless)
    | some x => exact ofQuery?_least (hlimit x rfl) hfinite hsign
  · have horder : (Number.order m (Number.ofNat 0) == .gt) = false :=
      beq_eq_false_iff_ne.mpr fun horder => hpositive ((Number.toInt_pos_iff hm).mpr horder)
    rw [horder, if_pos (Int.not_lt.mp hpositive)]
    cases limit <;> rfl

end Limit

namespace Statement

theorem written_of_readLimit {cs : List Char} {x : Float} (h : Query.readLimit cs = .ok x) :
    Limit.Written x := by
  unfold Query.readLimit at h
  dsimp only at h
  split at h
  · cases Except.ok.inj h
    have hword := Number.Decimal.word_le ⟨Number.digitsValue (Text.trim cs), 0⟩
    exact ⟨Number.isNegative_ofWord false hword,
      (Number.magnitude_ofWord false hword).le.trans hword⟩
  · cases h

theorem written_of_read {query : String} {s : Statement} (h : Statement.read query = .ok s) :
    ∀ x ∈ s.limit, Limit.Written x := by
  unfold Statement.read at h
  obtain ⟨outline, -, h⟩ := Success.of_bind h
  obtain ⟨selection, -, h⟩ := Success.of_bind h
  obtain ⟨filter, -, h⟩ := Success.of_bind h
  obtain ⟨group, -, h⟩ := Success.of_bind h
  obtain ⟨order, -, h⟩ := Success.of_bind h
  obtain ⟨limit, hlimit, h⟩ := Success.of_bind h
  cases Except.ok.inj h
  intro x hx
  cases htext : outline.limit with
  | none =>
    rw [htext] at hlimit
    cases Except.ok.inj hlimit
    cases hx
  | some text =>
    rw [htext] at hlimit
    obtain ⟨y, hread, rfl⟩ := Success.of_map hlimit
    cases Option.some.inj hx
    exact written_of_readLimit hread

theorem answer_limited {s : Statement} {limit : Option Float}
    (hlimit : ∀ x ∈ limit, Limit.Written x) {m : Float} (hm : Number.isIntegral m = true)
    (rows : List Row) :
    { s with limit }.answer m rows =
      Limit.firstRows (Limit.allowed? limit m)
        ({ s with limit := none }.answer (Number.ofNat 0) rows) := by
  have hnone : Limit.effective none (Number.ofNat 0) = none := by decide +kernel
  have hfound : { s with limit }.found rows = { s with limit := none }.found rows := rfl
  have hshown : { s with limit }.shown = { s with limit := none }.shown := rfl
  rw [answer_eq_map, answer_eq_map, hfound, hshown, Limit.cut_eq_firstRows,
    Limit.ofQuery?_effective hlimit hm, Limit.map_firstRows]
  dsimp only
  rw [hnone, Limit.cut]

end Statement

/-- A success in plain data with its first rows only, and anything else as it is. -/
def Response.firstRows (k : Option Nat) : Response → Response
  | .success .json _ (.rows rows) =>
    .success .json (Limit.firstRows k rows).length (.rows (Limit.firstRows k rows))
  | response => response

namespace Engine

/-- A query with a limit, or without one, is answered to a caller's limit with the first rows of
what the query without a limit is answered, or fails as it does. -/
theorem execute_limited {e : Engine} {p : Provider} {query query' name : String} {m : Float}
    {j j' : Journal} {s : Statement} {limit : Option Float} (hm : Number.isIntegral m = true)
    (hname : Format.ofName? name = some .json)
    (hread : Statement.read query = .ok { s with limit })
    (hread' : Statement.read query' = .ok { s with limit := none }) :
    ((e.execute p query (some m) name).run j).1 =
      (((e.execute p query' (some (Number.ofNat 0)) name).run j').1).firstRows
        (Limit.allowed? limit m) := by
  rw [execute_fst, execute_fst, outcome_of_read hname hread, outcome_of_read hname hread']
  dsimp only
  cases p.fetched s.table with
  | error failure => rfl
  | ok rows =>
    have hcheck : { s with limit }.checkFields e.settings rows =
        { s with limit := none }.checkFields e.settings rows := rfl
    dsimp only [Except.bind]
    rw [hcheck]
    cases { s with limit := none }.checkFields e.settings rows with
    | error failure => rfl
    | ok u =>
      have hanswer := Statement.answer_limited (Statement.written_of_read hread) hm (s := s) rows
      have hlimit : e.limitOr (some m) = m := rfl
      have hnone : e.limitOr (some (Number.ofNat 0)) = Number.ofNat 0 := rfl
      rw [hlimit, hnone, hanswer]
      generalize { s with limit := none }.answer (Number.ofNat 0) rows = found
      generalize Limit.allowed? limit m = k
      have hlength : (Limit.firstRows k found).length =
          (Limit.firstRows k (found.map Row.toPlain)).length := by
        rw [← Limit.map_firstRows, List.length_map]
      unfold Format.render
      dsimp only [Except.mapError, Except.bind]
      rw [Response.firstRows, Limit.map_firstRows, hlength]

theorem execute_limited_two : ∃ s, Statement.read "SELECT a FROM t LIMIT 2" = .ok s ∧
    Limit.allowed? s.limit (Number.ofNat 5) = some 2 ∧
    (((Engine.mk {}).execute (.ofRows [[("a", .string "x")], [("a", .string "y")],
        [("a", .string "z")]]) "SELECT a FROM t LIMIT 2" (some (Number.ofNat 5)) "json").run {}).1 =
      (((Engine.mk {}).execute (.ofRows [[("a", .string "x")], [("a", .string "y")],
        [("a", .string "z")]]) "SELECT a FROM t" (some (Number.ofNat 0)) "json").run {}).1.firstRows
          (some 2) := by
  have hparts : (Statement.read "SELECT a FROM t LIMIT 2").toOption.any (fun s =>
      decide (Limit.allowed? s.limit (Number.ofNat 5) = some 2) &&
        (Statement.read "SELECT a FROM t").toOption.any (Statement.agrees · s)) = true := by
    decide +kernel
  cases hread : Statement.read "SELECT a FROM t LIMIT 2" with
  | error fault =>
    rw [hread] at hparts
    cases hparts
  | ok s =>
    rw [hread] at hparts
    simp only [Except.toOption, Option.any_some, Bool.and_eq_true, decide_eq_true_eq] at hparts
    obtain ⟨hallowed, hagrees⟩ := hparts
    refine ⟨s, rfl, hallowed, ?_⟩
    rw [← hallowed]
    exact execute_limited (by decide +kernel) (by decide +kernel) hread
      (Statement.read_of_agrees hagrees)

end Engine
end TableQuery
