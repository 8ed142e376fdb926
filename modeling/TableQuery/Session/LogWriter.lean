import TableQuery.Session.Journal

/-! # Writing the log

What is logged does not get into its file at once. Each entry becomes a task for the stream that
is open at the time, tasks are done one after the other, and a stream appends what it was handed
some time later. Another file means another stream, and a task that ends the one before. Whoever
closes the writer waits until no task is left, then ends the open stream and waits until it has
appended everything. Who moves next, the caller, the queue or a stream, is left open: a run is any
sequence of their moves.
-/
namespace TableQuery

/-- A stream into a file. It appends what it is handed, in order, unless it was ended before. -/
structure LogStream where
  file : String
  /-- What the stream was handed and the file does not have yet. -/
  held : List LogEntry := []
  ended : Bool := false
  deriving DecidableEq, Repr

namespace LogStream

def hand (entry : LogEntry) (stream : LogStream) : LogStream :=
  if stream.ended then stream else { stream with held := stream.held ++ [entry] }

def finish (stream : LogStream) : LogStream := { stream with ended := true }

/-- The stream behind the first entry that it holds. -/
def tail (stream : LogStream) : LogStream := { stream with held := stream.held.tail }

@[simp] theorem file_hand (entry : LogEntry) (stream : LogStream) :
    (stream.hand entry).file = stream.file := by
  unfold hand
  split <;> rfl

@[simp] theorem ended_hand (entry : LogEntry) (stream : LogStream) :
    (stream.hand entry).ended = stream.ended := by
  unfold hand
  split <;> rfl

theorem held_hand {stream : LogStream} (h : stream.ended = false) (entry : LogEntry) :
    (stream.hand entry).held = stream.held ++ [entry] := by simp [hand, h]

@[simp] theorem file_finish (stream : LogStream) : stream.finish.file = stream.file := rfl

@[simp] theorem file_tail (stream : LogStream) : stream.tail.file = stream.file := rfl

@[simp] theorem ended_tail (stream : LogStream) : stream.tail.ended = stream.ended := rfl

@[simp] theorem held_tail (stream : LogStream) : stream.tail.held = stream.held.tail := rfl

end LogStream

/-- A task of the queue, for the stream with a number. -/
inductive LogTask where
  | hand (stream : Nat) (entry : LogEntry)
  | finish (stream : Nat)
  deriving DecidableEq, Repr

structure LogWriter where
  enabled : Bool := false
  file : String := "./rowquery.log"
  /-- All streams so far. -/
  streams : List LogStream := []
  /-- The number of the stream that is open for what is logged next. -/
  current : Option Nat := none
  /-- The tasks that were not begun yet. -/
  queue : List LogTask := []
  /-- The stream that the task under way waits for, until it holds nothing. -/
  awaited : Option Nat := none
  /-- What the files have got, each entry with its file. -/
  written : List (String × LogEntry) := []
  deriving DecidableEq, Repr

namespace LogWriter

def journal (w : LogWriter) : Journal :=
  { enabled := w.enabled, file := w.file, entries := w.written }

def entriesOf (file : String) (w : LogWriter) : List LogEntry := w.journal.entriesOf file

def heldBy (w : LogWriter) (s : Nat) : List LogEntry := (w.streams[s]?.map (·.held)).getD []

/-- Switches logging on or off, and chooses the file, where either is given. The stream into
another file is ended when the tasks before are done. -/
def configure (enabled : Option Bool) (file : Option String) (w : LogWriter) : LogWriter :=
  let w := { w with enabled := enabled.getD w.enabled }
  let name := file.getD w.file
  if name = w.file then w
  else
    { w with
      file := name
      current := none
      queue := w.queue ++ (w.current.map LogTask.finish).toList }

/-- A stream that is open, and the writer with it. -/
def opened (w : LogWriter) : Nat × LogWriter :=
  match w.current with
  | some s => (s, w)
  | none =>
    (w.streams.length,
      { w with streams := w.streams ++ [{ file := w.file }], current := some w.streams.length })

def log (entry : LogEntry) (w : LogWriter) : LogWriter :=
  if w.enabled then
    let (s, w) := w.opened
    { w with queue := w.queue ++ [.hand s entry] }
  else w

def isIdle (w : LogWriter) : Bool := w.queue.isEmpty && w.awaited.isNone

def release (w : LogWriter) : LogWriter :=
  match w.current with
  | some s => { w with streams := w.streams.modify s LogStream.finish, current := none }
  | none => w

/-- Begins the next task or ends the one under way. A stream that is full is waited for. -/
def advance? (full : Bool) (w : LogWriter) : Option LogWriter :=
  match w.awaited, w.queue with
  | some s, _ => if (w.heldBy s).isEmpty then some { w with awaited := none } else none
  | none, [] => none
  | none, .hand s entry :: rest =>
    some { w with
      streams := w.streams.modify s (LogStream.hand entry)
      queue := rest
      awaited := if full then some s else none }
  | none, .finish s :: rest =>
    some { w with
      streams := w.streams.modify s LogStream.finish
      queue := rest
      awaited := some s }

/-- Appends the first entry that a stream holds to its file. -/
def append? (s : Nat) (w : LogWriter) : Option LogWriter :=
  match w.streams[s]? with
  | some ⟨file, entry :: _, _⟩ =>
    some { w with
      streams := w.streams.modify s LogStream.tail
      written := w.written ++ [(file, entry)] }
  | _ => none

end LogWriter

inductive LogCall where
  | configure (enabled : Option Bool) (file : Option String)
  | log (entry : LogEntry)
  /-- Waits until no task is left. -/
  | flush
  | close
  deriving DecidableEq, Repr

/-- What a call does to a journal, which has its entries at once. -/
def Journal.call (j : Journal) : LogCall → Journal
  | .configure enabled file => j.configure enabled file
  | .log entry => j.log entry
  | .flush | .close => j

/-- What the caller waits for: that no task is left, for `flush` or for `close`, or that a stream
has appended everything. -/
inductive LogWait where
  | flush
  | close
  | stream (s : Nat)
  deriving DecidableEq, Repr

/-- A writer, what its caller waits for, and the calls still to be made. -/
structure LogRun where
  writer : LogWriter := {}
  waiting : Option LogWait := none
  calls : List LogCall
  deriving DecidableEq, Repr

inductive LogMove where
  | caller
  | queue (full : Bool)
  | stream (s : Nat)
  deriving DecidableEq, Repr

namespace LogRun

/-- The caller makes the next call, or goes on behind what it waited for. -/
def proceed? (x : LogRun) : Option LogRun :=
  match x.waiting, x.calls with
  | none, [] => none
  | none, .configure enabled file :: rest =>
    some { x with writer := x.writer.configure enabled file, calls := rest }
  | none, .log entry :: rest => some { x with writer := x.writer.log entry, calls := rest }
  | none, .flush :: rest => some { x with waiting := some .flush, calls := rest }
  | none, .close :: rest => some { x with waiting := some .close, calls := rest }
  | some .flush, _ => if x.writer.isIdle then some { x with waiting := none } else none
  | some .close, _ =>
    if x.writer.isIdle then
      some { x with writer := x.writer.release, waiting := x.writer.current.map LogWait.stream }
    else none
  | some (.stream s), _ =>
    if (x.writer.heldBy s).isEmpty then some { x with waiting := none } else none

def move? (x : LogRun) : LogMove → Option LogRun
  | .caller => x.proceed?
  | .queue full => (x.writer.advance? full).map fun w => { x with writer := w }
  | .stream s => (x.writer.append? s).map fun w => { x with writer := w }

/-- The run behind some moves, if they can be made. -/
def after? (x : LogRun) (moves : List LogMove) : Option LogRun := moves.foldlM move? x

def IsOver (x : LogRun) : Prop := x.waiting = none ∧ x.calls = []

instance (x : LogRun) : Decidable x.IsOver := inferInstanceAs (Decidable (_ ∧ _))

end LogRun

def LogTask.weight : LogTask → Nat
  | .hand _ _ => 3
  | .finish _ => 2

/-- How many moves the queue and the streams have before them, at most. -/
def LogWriter.todo (w : LogWriter) : Nat :=
  w.queue.foldr (·.weight + ·) 0 + w.streams.foldr (·.held.length + ·) 0
    + if w.awaited.isSome then 1 else 0

def LogWait.weight : LogWait → Nat
  | .flush | .stream _ => 1
  | .close => 2

def LogCall.weight : LogCall → Nat
  | .configure _ _ => 3
  | .log _ => 4
  | .flush => 2
  | .close => 3

namespace LogRun

def todo (x : LogRun) : Nat :=
  x.writer.todo + (x.waiting.map LogWait.weight).getD 0 + x.calls.foldr (·.weight + ·) 0

/-- The moves that are tried, in order. A caller that moves whenever it can leaves as much as
possible to be written later. -/
def candidates (x : LogRun) : List LogMove :=
  .caller :: .queue true :: (List.range x.writer.streams.length).map LogMove.stream

/-- The run behind so many moves, or behind the last that can be made. -/
def settle : Nat → LogRun → LogRun
  | 0, x => x
  | steps + 1, x =>
    match x.candidates.findSome? x.move? with
    | some y => settle steps y
    | none => x

def settled (x : LogRun) : LogRun := settle x.todo x

end LogRun
end TableQuery
