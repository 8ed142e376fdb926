import Mathlib.Data.List.Infix
import TableQuery.Proofs.Session.LogOrder
import TableQuery.Proofs.Session.LogProgress

/-! # What gets into the files of the log

A caller that begins with a closed writer and ends with `close` finds in each file what it logged
while that file was configured, once and in the order of its calls, whoever moved when. Every move
keeps the order of the writer, and with it the journal that the calls come to; when the last call
has returned, nothing is under way any more, so that journal is the one of the files.
-/
namespace TableQuery

namespace LogWriter
variable {w : LogWriter} {front holder s : Nat} {full : Bool}

/-- A writer that has nothing to do and no open stream, and whose streams have appended
everything. -/
structure IsClosed (w : LogWriter) : Prop where
  idle : w.isIdle = true
  current_eq : w.current = none
  heldBy_eq : ∀ s, w.heldBy s = []

theorem IsClosed.inOrder (h : w.IsClosed) : w.InOrder w.streams.length w.streams.length := by
  obtain ⟨hqueue, hawaited⟩ := isIdle_iff.mp h.idle
  refine ⟨?_, fun s entry hmem => ?_, fun s hs => ?_, fun s hs => ?_,
    fun s hs => absurd (h.heldBy_eq s) hs, fun s hs => ?_⟩
  · rw [hqueue, next, h.current_eq]
    rfl
  · rw [hqueue] at hmem
    cases hmem
  · cases h.current_eq.symm.trans hs
  · simp [List.getElem?_eq_none hs]
  · cases hawaited.symm.trans hs

theorem IsClosed.promised_eq (h : w.IsClosed) : w.promised = w.journal := by
  have hheld : w.held = [] := by
    rw [h.inOrder.held_eq, List.getElem?_eq_none (Nat.le_refl _)]
    rfl
  have hqueued : w.queued = [] := by rw [queued, (isIdle_iff.mp h.idle).1, List.filterMap_nil]
  rw [promised, hheld, hqueued, List.append_nil, List.append_nil]
  rfl

theorem advance?_of_isIdle (h : w.isIdle = true) : w.advance? full = none := by
  obtain ⟨hqueue, hawaited⟩ := isIdle_iff.mp h
  simp [advance?, hqueue, hawaited]

theorem awaited_configure (enabled : Option Bool) (file : Option String) :
    (w.configure enabled file).awaited = w.awaited := by
  unfold configure
  dsimp only
  split <;> rfl

theorem awaited_log (entry : LogEntry) : (w.log entry).awaited = w.awaited := by
  unfold log opened
  split
  · cases w.current <;> rfl
  · rfl

/-- Without tasks and without an open stream, no stream is there to be gone on with. -/
theorem InOrder.isClosed (h : w.InOrder front front) (hidle : w.isIdle = true)
    (hcurrent : w.current = none) : w.IsClosed := by
  have hleads := h.leads
  rw [(isIdle_iff.mp hidle).1, next, hcurrent] at hleads
  obtain rfl : front = w.streams.length := hleads
  refine ⟨hidle, hcurrent, fun s => ?_⟩
  by_contra hheld
  exact absurd (lt_of_heldBy hheld) (h.holds s hheld ▸ Nat.lt_irrefl _)

end LogWriter

namespace LogRun
variable {x y : LogRun} {move : LogMove} {moves : List LogMove} {front holder : Nat}

/-- A run whose writer is in order. The queue goes on with the stream that holds entries, unless a
task or the caller waits for that stream. -/
structure InOrder (x : LogRun) (front holder : Nat) : Prop where
  writer : x.writer.InOrder front holder
  ready : (∀ s, x.waiting ≠ some (.stream s)) → x.writer.awaited = none → holder = front
  released : ∀ s, x.waiting = some (.stream s) →
    s = holder ∧ x.writer.isIdle = true ∧ x.writer.current = none

def outcome (x : LogRun) : Journal := x.calls.foldl Journal.call x.writer.promised

theorem InOrder.proceeds (h : x.InOrder front holder) (hmove : Proceeds x y) :
    (∃ front holder, y.InOrder front holder) ∧ y.outcome = x.outcome := by
  obtain ⟨hwriter, hready, hreleased⟩ := h
  cases hmove with
  | configure =>
    refine ⟨⟨front, holder, hwriter.configure _ _, fun _ => ?_, nofun⟩, ?_⟩
    · rw [LogWriter.awaited_configure]
      exact hready nofun
    · rw [outcome, LogWriter.promised_configure]
      rfl
  | log =>
    obtain ⟨horder, hpromised⟩ := hwriter.log _
    refine ⟨⟨front, holder, horder, fun _ => ?_, nofun⟩, ?_⟩
    · rw [LogWriter.awaited_log]
      exact hready nofun
    · rw [outcome, hpromised]
      rfl
  | flush | close | flushed | closed =>
    exact ⟨⟨front, holder, hwriter, fun _ => hready nofun, nofun⟩, rfl⟩
  | @released w s calls hidle hcurrent =>
    obtain rfl := hready nofun (LogWriter.isIdle_iff.mp hidle).2
    obtain ⟨horder, hpromised⟩ := hwriter.release hidle hcurrent
    have hended : w.release.isIdle = true ∧ w.release.current = none := by
      rw [LogWriter.release, hcurrent]
      exact ⟨hidle, rfl⟩
    refine ⟨⟨s + 1, s, horder, fun hwaiting => absurd rfl (hwaiting s), fun k hk => ?_⟩, ?_⟩
    · cases hk
      exact ⟨rfl, hended⟩
    · rw [outcome, hpromised]
      rfl
  | @appended w s calls hheld =>
    obtain ⟨rfl, hidle, -⟩ := hreleased s rfl
    have horder := hwriter.of_heldBy_eq hheld front
    rw [← (LogWriter.isIdle_iff.mp hidle).2] at horder
    exact ⟨⟨front, front, horder, fun _ _ => rfl, nofun⟩, rfl⟩

theorem InOrder.move? (h : x.InOrder front holder) (hmove : x.move? move = some y) :
    (∃ front holder, y.InOrder front holder) ∧ y.outcome = x.outcome := by
  cases move with
  | caller => exact h.proceeds (proceeds_of_proceed? hmove)
  | queue full =>
    obtain ⟨w, hw, rfl⟩ := Option.map_eq_some_iff.mp hmove
    have hwaiting : ∀ s, x.waiting ≠ some (.stream s) := by
      intro s hs
      rw [LogWriter.advance?_of_isIdle (h.released s hs).2.1] at hw
      cases hw
    obtain ⟨front', holder', horder, hready, hpromised⟩ := h.writer.advance? (h.ready hwaiting) hw
    refine ⟨⟨front', holder', horder, fun _ => hready, fun s hs => absurd hs (hwaiting s)⟩, ?_⟩
    rw [outcome, hpromised]
    rfl
  | stream s =>
    obtain ⟨w, hw, rfl⟩ := Option.map_eq_some_iff.mp hmove
    obtain ⟨horder, hpromised, hawaited, hqueue, hcurrent⟩ := h.writer.append? hw
    refine ⟨⟨front, holder, horder, hawaited ▸ h.ready, fun k hk => ?_⟩, ?_⟩
    · rw [LogWriter.isIdle, hqueue, hawaited, hcurrent]
      exact h.released k hk
    · rw [outcome, hpromised]
      rfl

/-- The last call of a run is `close`, and when it has returned, the writer has no task and no open
stream. -/
def Closes (x : LogRun) : Prop :=
  x.calls.getLast? = some .close ∨ x.calls = [] ∧ x.waiting ≠ some .flush ∧
    (x.waiting = none → x.writer.isIdle = true ∧ x.writer.current = none)

/-- The first call of a run that ends with `close` is the last one, or the calls behind it end with
`close`. -/
theorem Closes.rest {w : LogWriter} {waiting : Option LogWait} {call : LogCall}
    {calls : List LogCall} (h : Closes ⟨w, waiting, call :: calls⟩) :
    call = .close ∧ calls = [] ∨ calls.getLast? = some .close := by
  rcases h with hlast | ⟨hnil, -⟩
  · rw [List.getLast?_cons] at hlast
    cases hcalls : calls.getLast? with
    | none =>
      rw [hcalls] at hlast
      exact .inl ⟨Option.some.inj hlast, List.getLast?_eq_none_iff.mp hcalls⟩
    | some last =>
      rw [hcalls] at hlast
      exact .inr hlast
  · cases hnil

theorem Closes.proceeds (hcloses : x.Closes) (h : x.InOrder front holder)
    (hmove : Proceeds x y) : y.Closes := by
  cases hmove with
  | configure | log | flush => exact hcloses.rest.elim nofun .inl
  | close => exact hcloses.rest.elim (fun hlast => .inr ⟨hlast.2, nofun, nofun⟩) .inl
  | flushed => exact hcloses.elim .inl fun hcalled => absurd rfl hcalled.2.1
  | closed hidle hcurrent =>
    exact hcloses.imp_right fun hcalled => ⟨hcalled.1, nofun, fun _ => ⟨hidle, hcurrent⟩⟩
  | released => exact hcloses.imp_right fun hcalled => ⟨hcalled.1, nofun, nofun⟩
  | appended =>
    exact hcloses.imp_right fun hcalled => ⟨hcalled.1, nofun, fun _ => (h.released _ rfl).2⟩

theorem Closes.move? (hcloses : x.Closes) (h : x.InOrder front holder)
    (hmove : x.move? move = some y) : y.Closes := by
  cases move with
  | caller => exact hcloses.proceeds h (proceeds_of_proceed? hmove)
  | queue full =>
    obtain ⟨w, hw, rfl⟩ := Option.map_eq_some_iff.mp hmove
    refine hcloses.imp_right fun hcalled => ⟨hcalled.1, hcalled.2.1, fun hwaiting => ?_⟩
    rw [LogWriter.advance?_of_isIdle (hcalled.2.2 hwaiting).1] at hw
    cases hw
  | stream s =>
    obtain ⟨w, hw, rfl⟩ := Option.map_eq_some_iff.mp hmove
    obtain ⟨-, -, hawaited, hqueue, hcurrent⟩ := h.writer.append? hw
    refine hcloses.imp_right fun hcalled => ⟨hcalled.1, hcalled.2.1, fun hwaiting => ?_⟩
    rw [LogWriter.isIdle, hqueue, hawaited, hcurrent]
    exact hcalled.2.2 hwaiting

/-- Moves keep the order of a run and what it comes to, and that it ends with `close`. -/
theorem InOrder.after? (h : x.InOrder front holder) (hcloses : x.Closes)
    (hmoves : x.after? moves = some y) :
    (∃ front holder, y.InOrder front holder) ∧ y.Closes ∧ y.outcome = x.outcome := by
  induction moves generalizing x front holder with
  | nil =>
    cases Option.some.inj hmoves
    exact ⟨⟨front, holder, h⟩, hcloses, rfl⟩
  | cons move moves ih =>
    obtain ⟨z, hz, hrest⟩ := Option.bind_eq_some_iff.mp hmoves
    obtain ⟨⟨front', holder', hstep⟩, hsame⟩ := h.move? hz
    obtain ⟨horder, hlast, houtcome⟩ := ih hstep (hcloses.move? h hz) hrest
    exact ⟨horder, hlast, houtcome.trans hsame⟩

/-- When the last call has returned, the writer is closed and its files have got what the calls
come to. -/
theorem journal_of_isOver {w : LogWriter} (hclosed : w.IsClosed) {calls : List LogCall}
    (hlast : calls.getLast? = some .close)
    (hmoves : ({ writer := w, calls := calls } : LogRun).after? moves = some x) (hover : x.IsOver) :
    x.writer.IsClosed ∧ x.writer.journal = calls.foldl Journal.call w.journal := by
  have hstart : InOrder { writer := w, calls := calls } w.streams.length w.streams.length :=
    ⟨hclosed.inOrder, fun _ _ => rfl, nofun⟩
  obtain ⟨⟨front, holder, horder⟩, hcloses, houtcome⟩ := hstart.after? (.inl hlast) hmoves
  obtain ⟨hwaiting, hcalls⟩ := hover
  have hdone : x.writer.isIdle = true ∧ x.writer.current = none := by
    rcases hcloses with hmore | ⟨-, -, hdone⟩
    · rw [hcalls] at hmore
      cases hmore
    · exact hdone hwaiting
  have hready : holder = front := by
    refine horder.ready (fun s hs => ?_) (LogWriter.isIdle_iff.mp hdone.1).2
    cases hwaiting.symm.trans hs
  have hend : x.writer.IsClosed := (hready ▸ horder.writer).isClosed hdone.1 hdone.2
  refine ⟨hend, ?_⟩
  calc x.writer.journal
      = x.outcome := by rw [outcome, hcalls, hend.promised_eq, List.foldl_nil]
    _ = calls.foldl Journal.call w.promised := houtcome
    _ = calls.foldl Journal.call w.journal := by rw [hclosed.promised_eq]

/-- The journal of a settled run, whose entries are appended late, is the one of its calls, whose
entries are there at once. -/
theorem journal_settled {w : LogWriter} (hclosed : w.IsClosed) {calls : List LogCall}
    (hlast : calls.getLast? = some .close) :
    (settled { writer := w, calls := calls }).writer.journal =
      calls.foldl Journal.call w.journal := by
  obtain ⟨⟨moves, hmoves⟩, hover⟩ := settled_isOver { writer := w, calls := calls }
  exact (journal_of_isOver hclosed hlast hmoves hover).2

end LogRun

namespace LogCall

def enabled? : LogCall → Option Bool
  | configure enabled _ => enabled
  | _ => none

def file? : LogCall → Option String
  | configure _ file => file
  | _ => none

def entry? : LogCall → Option LogEntry
  | log entry => some entry
  | _ => none

/-- What a setting is behind some calls: what it was given last. -/
def lastGiven {α : Type} (given? : LogCall → Option α) (before : α) (calls : List LogCall) : α :=
  (calls.filterMap given?).getLast?.getD before

/-- What a call logs for the file that goes by some names, where logging is on or off and a file is
configured. -/
def entryFor? (isName : String → Bool) (enabled : Bool) (file : String) (call : LogCall) :
    Option LogEntry :=
  if enabled && isName file then call.entry? else none

/-- What calls log for the file that goes by some names. The calls in front of each tell whether
logging is on and which file is configured. -/
def entriesFor (isName : String → Bool) (enabled : Bool) (file : String) (calls : List LogCall) :
    List LogEntry :=
  (calls.inits.zip calls).filterMap fun (earlier, call) =>
    call.entryFor? isName (lastGiven enabled? enabled earlier) (lastGiven file? file earlier)

theorem lastGiven_nil {α : Type} (given? : LogCall → Option α) (before : α) :
    lastGiven given? before [] = before := rfl

theorem lastGiven_cons {α : Type} (given? : LogCall → Option α) (before : α) (call : LogCall)
    (calls : List LogCall) :
    lastGiven given? before (call :: calls) =
      lastGiven given? ((given? call).getD before) calls := by
  unfold lastGiven
  cases hgiven : given? call with
  | none => rw [List.filterMap_cons_none hgiven, Option.getD_none]
  | some given =>
    rw [List.filterMap_cons_some hgiven, List.getLast?_cons]
    rfl

variable {isName : String → Bool} {enabled : Bool} {file : String}

theorem entriesFor_cons (call : LogCall) (calls : List LogCall) :
    entriesFor isName enabled file (call :: calls) =
      (call.entryFor? isName enabled file).toList ++
        entriesFor isName (call.enabled?.getD enabled) (call.file?.getD file) calls := by
  unfold entriesFor
  rw [List.inits_cons, List.zip_cons_cons, List.zip_map_left, List.filterMap_cons,
    List.filterMap_map]
  simp only [Function.comp_def, Prod.map, id, lastGiven_nil, lastGiven_cons]
  cases call.entryFor? isName enabled file <;> rfl

end LogCall

/-- The entries for the file that goes by some names, in order. -/
def Journal.entriesUnder (isName : String → Bool) (j : Journal) : List LogEntry :=
  j.entries.filterMap fun (name, entry) => if isName name then some entry else none

theorem Journal.entriesOf_eq (file : String) (j : Journal) :
    j.entriesOf file = j.entriesUnder fun name => plainName name == plainName file := by
  simp [entriesOf, entriesUnder]

theorem Journal.entriesUnder_call (isName : String → Bool) (call : LogCall) (j : Journal) :
    (j.call call).entriesUnder isName = j.entriesUnder isName ++
      (call.entryFor? isName j.enabled j.file).toList := by
  cases call with
  | log entry =>
    rw [Journal.call, Journal.log]
    cases henabled : j.enabled with
    | false => simp [LogCall.entryFor?]
    | true => cases hname : isName j.file <;>
        simp [hname, entriesUnder, LogCall.entryFor?, LogCall.entry?]
  | configure _ _ | flush | close =>
    simp [call, Journal.configure, entriesUnder, LogCall.entryFor?, LogCall.entry?]

theorem Journal.entriesUnder_foldl_call (isName : String → Bool) (calls : List LogCall)
    (j : Journal) : (calls.foldl Journal.call j).entriesUnder isName =
      j.entriesUnder isName ++ LogCall.entriesFor isName j.enabled j.file calls := by
  induction calls generalizing j with
  | nil => simp [LogCall.entriesFor]
  | cons call calls ih =>
    have hsettings : (j.call call).enabled = call.enabled?.getD j.enabled ∧
        (j.call call).file = call.file?.getD j.file := by
      cases call with
      | log entry =>
        rw [Journal.call, Journal.log]
        split <;> exact ⟨rfl, rfl⟩
      | configure _ _ | flush | close => exact ⟨rfl, rfl⟩
    rw [List.foldl_cons, ih, entriesUnder_call, LogCall.entriesFor_cons, hsettings.1, hsettings.2,
      List.append_assoc]

/-- What a file has got behind a settled run, under whichever plain name it is asked for. -/
theorem LogRun.entriesOf_settled {w : LogWriter} (hclosed : w.IsClosed) {calls : List LogCall}
    (hlast : calls.getLast? = some .close) (file : String) :
    (settled { writer := w, calls := calls }).writer.entriesOf file =
      w.entriesOf file ++ LogCall.entriesFor
        (fun name => Journal.plainName name == Journal.plainName file) w.enabled w.file calls := by
  unfold LogWriter.entriesOf
  rw [journal_settled hclosed hlast, Journal.entriesOf_eq, Journal.entriesUnder_foldl_call,
    Journal.entriesOf_eq]
  rfl

/-- A caller begins with a closed writer and makes any calls, of which the last is `close`. However
the moves of the caller, the queue and the streams are mixed, a run has only so many of them and
goes on until the last call has returned. The writer is closed then, and a file, whatever names it
goes by, has got behind what it had the entries that were logged while logging was on and the file
was configured, once each and in the order of the calls. -/
theorem LogRun.files_of_calls {w : LogWriter} (hclosed : w.IsClosed) {calls : List LogCall}
    (hlast : calls.getLast? = some .close) :
    ∃ bound, ∀ moves x, ({ writer := w, calls := calls } : LogRun).after? moves = some x →
      moves.length ≤ bound ∧ (x.IsOver ∨ ∃ move, (x.move? move).isSome = true) ∧
      (x.IsOver → x.writer.IsClosed ∧ ∀ isName : String → Bool,
        x.writer.journal.entriesUnder isName =
          w.journal.entriesUnder isName ++ LogCall.entriesFor isName w.enabled w.file calls) := by
  refine ⟨todo { writer := w, calls := calls }, fun moves x hmoves => ⟨?_, ?_, fun hover => ?_⟩⟩
  · exact Nat.le_trans (Nat.le_add_right _ _) (length_moves_le hmoves)
  · by_cases hover : x.IsOver
    · exact .inl hover
    · obtain ⟨move, -, hmove⟩ := exists_candidate hover
      exact .inr ⟨move, hmove⟩
  · obtain ⟨hend, hjournal⟩ := journal_of_isOver hclosed hlast hmoves hover
    refine ⟨hend, fun isName => ?_⟩
    rw [hjournal, Journal.entriesUnder_foldl_call]
    rfl

/-- A caller that goes from one file to another and back, under another name of the first, and logs
once more when logging is off. The first entry is appended late, and the second stream is full. -/
theorem LogRun.files_of_calls_switching :
    ∃ x, ({ calls := [.configure (some true) (some "a"), .log (.message "one"),
          .configure none (some "b"), .log (.message "two"), .configure none (some "./a"),
          .log (.message "three"), .configure (some false) none, .log (.message "four"),
          .close] } : LogRun).after?
        [.caller, .caller, .queue false, .caller, .caller, .queue false, .caller, .stream 0,
          .queue false, .caller, .queue true, .caller, .caller, .caller, .stream 1, .queue false,
          .queue false, .queue false, .queue false, .caller, .stream 2, .caller] = some x ∧
      x.IsOver ∧
      x.writer.journal.entriesUnder (["a", "./a"].contains ·) = [.message "one", .message "three"] ∧
      x.writer.journal.entriesUnder (· == "b") = [.message "two"] := by
  obtain ⟨bound, hruns⟩ := @files_of_calls {} ⟨rfl, rfl, fun _ => rfl⟩
    [.configure (some true) (some "a"), .log (.message "one"), .configure none (some "b"),
      .log (.message "two"), .configure none (some "./a"), .log (.message "three"),
      .configure (some false) none, .log (.message "four"), .close] rfl
  generalize hend : LogRun.after? _ _ = last
  have hover : last.any (·.IsOver) = true := by
    rw [← hend]
    decide
  obtain ⟨x, rfl, hover⟩ := (Option.any_eq_true _ _).mp hover
  obtain ⟨-, hfiles⟩ := (hruns _ x hend).2.2 (of_decide_eq_true hover)
  refine ⟨x, rfl, of_decide_eq_true hover, ?_, ?_⟩
  · rw [hfiles]
    decide
  · rw [hfiles]
    decide

end TableQuery
