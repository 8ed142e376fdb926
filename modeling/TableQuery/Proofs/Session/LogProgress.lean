import Mathlib.Algebra.GroupWithZero.Nat
import Mathlib.Tactic.ByContra
import TableQuery.Session.LogWriter

/-! # The log gets written

Each move of a run takes something off what is to be done, and as long as a call has not returned
some move can be made: a task waits only for a stream that can append, and a caller only for tasks
and streams. So no run goes on for ever, and none gets stuck.
-/
namespace TableQuery

namespace LogWriter
variable {w w' : LogWriter} {s : Nat} {full : Bool}

theorem sum_modify_le (f : LogStream → LogStream) {k : Nat}
    (hf : ∀ stream, (f stream).held.length ≤ stream.held.length + k) (s : Nat)
    (streams : List LogStream) :
    ((streams.modify s f).map (·.held.length)).sum ≤ (streams.map (·.held.length)).sum + k := by
  induction streams generalizing s with
  | nil => simp
  | cons stream streams ih =>
    cases s with
    | zero =>
      simp only [List.modify_zero_cons, List.map_cons, List.sum_cons]
      have hfirst := hf stream
      omega
    | succ s =>
      simp only [List.modify_succ_cons, List.map_cons, List.sum_cons]
      have hrest := ih s
      omega

theorem sum_modify (f : LogStream → LogStream) {stream : LogStream} {streams : List LogStream}
    (hs : streams[s]? = some stream) :
    ((streams.modify s f).map (·.held.length)).sum + stream.held.length =
      (streams.map (·.held.length)).sum + (f stream).held.length := by
  induction streams generalizing s with
  | nil => cases hs
  | cons first streams ih =>
    cases s with
    | zero =>
      cases Option.some.inj hs
      simp only [List.modify_zero_cons, List.map_cons, List.sum_cons]
      omega
    | succ s =>
      simp only [List.modify_succ_cons, List.map_cons, List.sum_cons]
      have hrest := ih hs
      omega

theorem length_held_hand (entry : LogEntry) (stream : LogStream) :
    (stream.hand entry).held.length ≤ stream.held.length + 1 := by
  unfold LogStream.hand
  split <;> simp

theorem todo_eq (w : LogWriter) : w.todo = (w.queue.map LogTask.weight).sum
    + (w.streams.map (·.held.length)).sum + if w.awaited.isSome then 1 else 0 := by
  rw [List.sum_eq_foldr, List.sum_eq_foldr, List.foldr_map, List.foldr_map]
  rfl

theorem todo_advance? (h : w.advance? full = some w') : w'.todo < w.todo := by
  unfold advance? at h
  split at h
  · next s hawaited =>
    split at h
    · cases h
      simp [todo_eq, hawaited]
    · cases h
  · cases h
  · next s entry rest hawaited hqueue =>
    cases h
    have hsum := sum_modify_le (LogStream.hand entry) (length_held_hand entry) s w.streams
    simp only [todo_eq, hawaited, hqueue, List.map_cons, List.sum_cons, LogTask.weight]
    cases full
    · simp
      omega
    · simp
      omega
  · next s rest hawaited hqueue =>
    cases h
    have hsum := sum_modify_le LogStream.finish (k := 0) (fun _ => Nat.le_refl _) s w.streams
    simp only [todo_eq, hawaited, hqueue, List.map_cons, List.sum_cons, LogTask.weight,
      Option.isSome_some, if_true]
    omega

theorem todo_append? (h : w.append? s = some w') : w'.todo < w.todo := by
  unfold append? at h
  split at h
  · next file entry held ended hs =>
    cases h
    have hsum := sum_modify LogStream.tail hs
    simp only [todo_eq, LogStream.held_tail, List.tail_cons, List.length_cons] at hsum ⊢
    omega
  · cases h

theorem todo_configure (enabled : Option Bool) (file : Option String) :
    (w.configure enabled file).todo ≤ w.todo + 2 := by
  unfold configure
  dsimp only
  split
  · exact Nat.le_add_right _ _
  · cases w.current with
    | none => simp [todo_eq]
    | some s =>
      simp [todo_eq, LogTask.weight]
      omega

theorem todo_log (entry : LogEntry) : (w.log entry).todo ≤ w.todo + 3 := by
  unfold log opened
  split
  · cases w.current with
    | none =>
      simp [todo_eq, LogTask.weight]
      omega
    | some s =>
      simp [todo_eq, LogTask.weight]
      omega
  · exact Nat.le_add_right _ _

theorem todo_release : w.release.todo ≤ w.todo := by
  unfold release
  split
  · next s _ =>
    have hsum := sum_modify_le LogStream.finish (k := 0) (fun _ => Nat.le_refl _) s w.streams
    simp only [todo_eq]
    omega
  · exact Nat.le_refl _

theorem isSome_append? (h : w.heldBy s ≠ []) : (w.append? s).isSome = true := by
  unfold heldBy at h
  cases hs : w.streams[s]? with
  | none => simp [hs] at h
  | some stream =>
    obtain ⟨file, held, ended⟩ := stream
    cases held with
    | nil => simp [hs] at h
    | cons entry held => simp [append?, hs]

theorem lt_of_heldBy (h : w.heldBy s ≠ []) : s < w.streams.length := by
  by_contra hlate
  simp [heldBy, List.getElem?_eq_none (Nat.le_of_not_lt hlate)] at h

/-- A writer with tasks can begin or end one, or a stream has something to append. -/
theorem exists_of_not_isIdle (full : Bool) (h : w.isIdle = false) :
    (w.advance? full).isSome = true ∨ ∃ s, w.heldBy s ≠ [] := by
  cases hawaited : w.awaited with
  | some s =>
    by_cases hheld : w.heldBy s = []
    · exact .inl (by simp [advance?, hawaited, hheld])
    · exact .inr ⟨s, hheld⟩
  | none =>
    cases hqueue : w.queue with
    | nil => simp [isIdle, hawaited, hqueue] at h
    | cons task rest => cases task <;> exact .inl (by simp [advance?, hawaited, hqueue])

end LogWriter

namespace LogRun
variable {x y : LogRun} {move : LogMove}

/-- What the caller can do: make a call, or go on behind one. Behind `close` it goes on at once
where no stream is open, and otherwise waits for the stream that it ended. -/
inductive Proceeds : LogRun → LogRun → Prop
  | configure {w enabled file rest} : Proceeds ⟨w, none, .configure enabled file :: rest⟩
      ⟨w.configure enabled file, none, rest⟩
  | log {w entry rest} : Proceeds ⟨w, none, .log entry :: rest⟩ ⟨w.log entry, none, rest⟩
  | flush {w rest} : Proceeds ⟨w, none, .flush :: rest⟩ ⟨w, some .flush, rest⟩
  | close {w rest} : Proceeds ⟨w, none, .close :: rest⟩ ⟨w, some .close, rest⟩
  | flushed {w calls} : w.isIdle = true → Proceeds ⟨w, some .flush, calls⟩ ⟨w, none, calls⟩
  | closed {w calls} : w.isIdle = true → w.current = none →
      Proceeds ⟨w, some .close, calls⟩ ⟨w, none, calls⟩
  | released {w s calls} : w.isIdle = true → w.current = some s →
      Proceeds ⟨w, some .close, calls⟩ ⟨w.release, some (.stream s), calls⟩
  | appended {w s calls} : w.heldBy s = [] →
      Proceeds ⟨w, some (.stream s), calls⟩ ⟨w, none, calls⟩

theorem proceeds_of_proceed? (h : x.proceed? = some y) : Proceeds x y := by
  obtain ⟨w, waiting, calls⟩ := x
  unfold proceed? at h
  dsimp only at h
  split at h
  · cases h
  · cases h
    exact .configure
  · cases h
    exact .log
  · cases h
    exact .flush
  · cases h
    exact .close
  · split at h <;> cases h
    next hidle => exact .flushed hidle
  · split at h <;> cases h
    next hidle =>
    cases hcurrent : w.current with
    | none =>
      have hsame : w.release = w := by rw [LogWriter.release, hcurrent]
      rw [hsame]
      exact .closed hidle hcurrent
    | some s => exact .released hidle hcurrent
  · split at h <;> cases h
    next hheld => exact .appended (List.isEmpty_iff.mp hheld)

theorem todo_move? (h : x.move? move = some y) : y.todo < x.todo := by
  cases move with
  | queue full =>
    obtain ⟨w, hw, rfl⟩ := Option.map_eq_some_iff.mp h
    exact Nat.add_lt_add_right (Nat.add_lt_add_right (LogWriter.todo_advance? hw) _) _
  | stream s =>
    obtain ⟨w, hw, rfl⟩ := Option.map_eq_some_iff.mp h
    exact Nat.add_lt_add_right (Nat.add_lt_add_right (LogWriter.todo_append? hw) _) _
  | caller =>
    cases proceeds_of_proceed? h with
    | @configure w enabled file rest =>
      have hcall := LogWriter.todo_configure (w := w) enabled file
      simp only [todo, List.foldr_cons, LogCall.weight]
      omega
    | @log w entry rest =>
      have hcall := LogWriter.todo_log (w := w) entry
      simp only [todo, List.foldr_cons, LogCall.weight]
      omega
    | flush | close =>
      simp [todo, LogCall.weight, LogWait.weight]
      omega
    | flushed | closed | appended => simp [todo, LogWait.weight]
    | @released w s calls =>
      have hrelease := LogWriter.todo_release (w := w)
      simp [todo, LogWait.weight]
      omega

theorem length_moves_le {moves : List LogMove} (h : x.after? moves = some y) :
    moves.length + y.todo ≤ x.todo := by
  induction moves generalizing x with
  | nil =>
    cases Option.some.inj h
    simp
  | cons move moves ih =>
    obtain ⟨z, hz, hrest⟩ := Option.bind_eq_some_iff.mp h
    have hless := todo_move? hz
    have hmoves := ih hrest
    rw [List.length_cons]
    omega

/-- As long as a call is to be made or has not returned, one of the moves that are tried can be
made. -/
theorem exists_candidate (h : ¬x.IsOver) : ∃ move ∈ x.candidates, (x.move? move).isSome = true := by
  have hcaller : LogMove.caller ∈ x.candidates := List.mem_cons_self
  have hstream {s : Nat} (hheld : x.writer.heldBy s ≠ []) :
      ∃ move ∈ x.candidates, (x.move? move).isSome = true := by
    refine ⟨.stream s, ?_, by simpa [move?] using LogWriter.isSome_append? hheld⟩
    simpa [candidates] using LogWriter.lt_of_heldBy hheld
  have hidle (hidle : x.writer.isIdle = false) :
      ∃ move ∈ x.candidates, (x.move? move).isSome = true := by
    rcases LogWriter.exists_of_not_isIdle true hidle with hmove | ⟨s, hheld⟩
    · exact ⟨.queue true, by simp [candidates], by simpa [move?] using hmove⟩
    · exact hstream hheld
  obtain ⟨w, waiting, calls⟩ := x
  match waiting with
  | none =>
    refine ⟨.caller, hcaller, ?_⟩
    match calls with
    | [] => exact absurd ⟨rfl, rfl⟩ h
    | .configure _ _ :: _ | .log _ :: _ | .flush :: _ | .close :: _ => rfl
  | some .flush | some .close =>
    cases hw : w.isIdle with
    | false => exact hidle hw
    | true => exact ⟨.caller, hcaller, by simp [move?, proceed?, hw]⟩
  | some (.stream s) =>
    by_cases hheld : w.heldBy s = []
    · exact ⟨.caller, hcaller, by simp [move?, proceed?, hheld]⟩
    · exact hstream hheld

theorem exists_moves_settle (steps : Nat) (x : LogRun) :
    ∃ moves, x.after? moves = some (settle steps x) := by
  induction steps generalizing x with
  | zero => exact ⟨[], rfl⟩
  | succ steps ih =>
    rw [settle]
    split
    · next y hy =>
      obtain ⟨move, -, hmove⟩ := List.exists_of_findSome?_eq_some hy
      obtain ⟨moves, hmoves⟩ := ih y
      refine ⟨move :: moves, ?_⟩
      rw [after?, List.foldlM_cons, hmove]
      exact hmoves
    · exact ⟨[], rfl⟩

theorem isOver_settle {steps : Nat} {x : LogRun} (h : x.todo ≤ steps) :
    (settle steps x).IsOver := by
  have hfound {x : LogRun} (hover : ¬x.IsOver) : x.candidates.findSome? x.move? ≠ none := by
    obtain ⟨move, hmem, hmove⟩ := exists_candidate hover
    intro hnone
    rw [List.findSome?_eq_none_iff.mp hnone move hmem] at hmove
    cases hmove
  induction steps generalizing x with
  | zero =>
    by_contra hover
    obtain ⟨move, -, hmove⟩ := exists_candidate (x := x) hover
    obtain ⟨y, hy⟩ := Option.isSome_iff_exists.mp hmove
    have hless := todo_move? hy
    omega
  | succ steps ih =>
    rw [settle]
    split
    · next y hy =>
      obtain ⟨move, -, hmove⟩ := List.exists_of_findSome?_eq_some hy
      have hless := todo_move? hmove
      exact ih (by omega)
    · next hnone =>
      by_contra hover
      exact hfound hover hnone

theorem settled_isOver (x : LogRun) :
    (∃ moves, x.after? moves = some x.settled) ∧ x.settled.IsOver :=
  ⟨exists_moves_settle x.todo x, isOver_settle (Nat.le_refl _)⟩

end LogRun
end TableQuery
