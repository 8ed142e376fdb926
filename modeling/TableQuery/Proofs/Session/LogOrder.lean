import Mathlib.Data.List.Basic
import TableQuery.Session.LogWriter

/-! # The order of the log

What the files have got, what streams hold and what is queued for them is, one behind the other,
what was logged. This stays so while entries are queued, handed over and appended, because at any
time no more than one stream holds entries: the next one is handed nothing before the last one was
ended and has appended everything.
-/
namespace TableQuery

namespace LogStream

def lines (stream : LogStream) : List (String × LogEntry) := stream.held.map (stream.file, ·)

theorem flatMap_lines {streams : List LogStream} {s : Nat}
    (h : ∀ k stream, streams[k]? = some stream → stream.held ≠ [] → k = s) :
    streams.flatMap lines = (streams[s]?.map lines).getD [] := by
  induction streams generalizing s with
  | nil => rfl
  | cons first rest ih =>
    cases s with
    | zero =>
      have hrest : rest.flatMap lines = [] := by
        rw [List.flatMap_eq_nil_iff]
        intro stream hstream
        obtain ⟨k, hk⟩ := List.mem_iff_getElem?.mp hstream
        rw [lines, List.map_eq_nil_iff]
        by_contra hheld
        cases h (k + 1) stream hk hheld
      rw [List.flatMap_cons, hrest, List.append_nil]
      rfl
    | succ s =>
      have hfirst : first.lines = [] := by
        rw [lines, List.map_eq_nil_iff]
        by_contra hheld
        cases h 0 first rfl hheld
      rw [List.flatMap_cons, hfirst, List.nil_append, ih (s := s)]
      · rfl
      · intro k stream hk hheld
        exact Nat.succ.inj (h (k + 1) stream hk hheld)

theorem map_getElem?_modify {α : Type} {f : LogStream → LogStream} {g : LogStream → α}
    (hg : ∀ stream, g (f stream) = g stream) (streams : List LogStream) (s k : Nat) :
    (streams.modify s f)[k]?.map g = streams[k]?.map g := by
  rw [List.getElem?_modify]
  by_cases hk : s = k
  · cases streams[k]? <;> simp [hk, hg]
  · simp [hk]

theorem map_getElem?_modify_ne {α : Type} {f : LogStream → LogStream} {g : LogStream → α}
    {streams : List LogStream} {s k : Nat} (hk : s ≠ k) :
    (streams.modify s f)[k]?.map g = streams[k]?.map g := by
  rw [List.getElem?_modify_ne _ _ hk]

theorem flatMap_modify {α : Type} {f : LogStream → LogStream} {g : LogStream → List α}
    (hg : ∀ stream, g (f stream) = g stream) (streams : List LogStream) (s : Nat) :
    (streams.modify s f).flatMap g = streams.flatMap g := by
  have hmap : (streams.modify s f).map g = streams.map g := by
    refine List.ext_getElem? fun k => ?_
    rw [List.getElem?_map, List.getElem?_map, map_getElem?_modify hg]
  rw [List.flatMap_def, List.flatMap_def, hmap]

/-- Among streams with a fresh one behind them, a number is that of the same stream as before or of
the fresh one. -/
theorem getElem?_concat (streams : List LogStream) (fresh : LogStream) (s : Nat) :
    (streams ++ [fresh])[s]? = streams[s]? ∨ (streams ++ [fresh])[s]? = some fresh := by
  rcases Nat.lt_trichotomy s streams.length with hlt | rfl | hlt
  · exact .inl (List.getElem?_append_left hlt)
  · exact .inr List.getElem?_concat_length
  · left
    rw [List.getElem?_eq_none (Nat.le_of_lt hlt), List.getElem?_eq_none]
    rw [List.length_append]
    exact hlt

theorem lines_finish (stream : LogStream) : stream.finish.lines = stream.lines := rfl

end LogStream

namespace LogTask

/-- What a task hands to one of some streams, with the file of the stream. -/
def line? (streams : List LogStream) : LogTask → Option (String × LogEntry)
  | hand s entry => streams[s]?.map fun stream => (stream.file, entry)
  | finish _ => none

theorem line?_modify {f : LogStream → LogStream} (hf : ∀ stream, (f stream).file = stream.file)
    (streams : List LogStream) (s : Nat) : line? (streams.modify s f) = line? streams := by
  funext task
  cases task with
  | hand k entry => exact LogStream.map_getElem?_modify (fun stream => by rw [hf]) streams s k
  | finish k => rfl

end LogTask

namespace LogWriter

def held (w : LogWriter) : List (String × LogEntry) := w.streams.flatMap LogStream.lines

def queued (w : LogWriter) : List (String × LogEntry) := w.queue.filterMap (LogTask.line? w.streams)

/-- The journal of what the files have got and of what is still under way to them. -/
def promised (w : LogWriter) : Journal :=
  { enabled := w.enabled, file := w.file, entries := w.written ++ w.held ++ w.queued }

def next (w : LogWriter) : Nat := w.current.getD w.streams.length

/-- Tasks that start with a stream and end with another: they hand entries to a stream until they
end it, and then to the one behind it. -/
def Leads : Nat → List LogTask → Nat → Prop
  | front, [], back => front = back
  | front, .hand s _ :: rest, back => s = front ∧ Leads front rest back
  | front, .finish s :: rest, back => s = front ∧ Leads (front + 1) rest back

theorem Leads.append {a b c : Nat} {tasks more : List LogTask} (h : Leads a tasks b)
    (hmore : Leads b more c) : Leads a (tasks ++ more) c := by
  induction tasks generalizing a with
  | nil =>
    cases h
    exact hmore
  | cons task tasks ih => cases task <;> exact ⟨h.1, ih h.2⟩

/-- A writer whose queue goes on with a stream, while no stream but one holder holds entries. -/
structure InOrder (w : LogWriter) (front holder : Nat) : Prop where
  leads : Leads front w.queue w.next
  /-- Entries are queued for streams that there are. -/
  opened : ∀ s entry, .hand s entry ∈ w.queue → s < w.streams.length
  /-- The open stream is the last one, and one into the file that is configured. -/
  current_eq : ∀ s, w.current = some s → s + 1 = w.streams.length ∧
    w.streams[s]?.map (·.file) = some w.file
  /-- Only streams in front of the queue were ended. -/
  usable : ∀ s, front ≤ s → w.streams[s]?.map (·.ended) ≠ some true
  holds : ∀ s, w.heldBy s ≠ [] → s = holder
  awaited_eq : ∀ s, w.awaited = some s → s = holder

variable {w w' : LogWriter} {front holder s : Nat} {full : Bool}

theorem isIdle_iff : w.isIdle = true ↔ w.queue = [] ∧ w.awaited = none := by
  simp [isIdle]

theorem InOrder.held_eq (h : w.InOrder front holder) :
    w.held = (w.streams[holder]?.map LogStream.lines).getD [] := by
  refine LogStream.flatMap_lines fun k stream hk hheld => h.holds k ?_
  rwa [heldBy, hk]

theorem InOrder.heldBy_eq (h : w.InOrder front holder) (hs : s ≠ holder) : w.heldBy s = [] := by
  by_contra hheld
  exact hs (h.holds s hheld)

/-- Where the holder holds nothing any more, any stream may be the next one to hold something. -/
theorem InOrder.of_heldBy_eq (h : w.InOrder front holder) (hheld : w.heldBy holder = [])
    (s : Nat) : ({ w with awaited := none } : LogWriter).InOrder front s := by
  refine ⟨h.leads, h.opened, h.current_eq, h.usable, fun k hk => absurd ?_ hk, nofun⟩
  by_cases hholder : k = holder
  · exact hholder ▸ hheld
  · exact h.heldBy_eq hholder

/-- The order is kept where the holder changes but not its file, while tasks are begun and the open
stream may be given up. The holder may be ended if the queue is behind it. -/
theorem InOrder.modify (h : w.InOrder front s) {f : LogStream → LogStream}
    (hfile : ∀ stream, (f stream).file = stream.file) {front' : Nat} (hfront : front ≤ front')
    (hended : front' ≤ s → ∀ stream, (f stream).ended = stream.ended)
    (hstreams : w'.streams = w.streams.modify s f) (hname : w'.file = w.file)
    (hcurrent : ∀ k, w'.current = some k → w.current = some k) (hqueue : w'.queue ⊆ w.queue)
    (hleads : Leads front' w'.queue w'.next) (hawaited : ∀ k, w'.awaited = some k → k = s) :
    w'.InOrder front' s := by
  refine ⟨hleads, fun k entry hmem => ?_, fun k hk => ?_, fun k hk => ?_, fun k hk => ?_, hawaited⟩
  · rw [hstreams, List.length_modify]
    exact h.opened k entry (hqueue hmem)
  · rw [hstreams, List.length_modify, LogStream.map_getElem?_modify hfile, hname]
    exact h.current_eq k (hcurrent k hk)
  · rw [hstreams]
    by_cases hs : s = k
    · rw [LogStream.map_getElem?_modify (hended (hs ▸ hk))]
      exact h.usable k (Nat.le_trans hfront hk)
    · rw [LogStream.map_getElem?_modify_ne hs]
      exact h.usable k (Nat.le_trans hfront hk)
  · by_contra hne
    rw [heldBy, hstreams, LogStream.map_getElem?_modify_ne (Ne.symm hne)] at hk
    exact hk (h.heldBy_eq hne)

theorem InOrder.configure (h : w.InOrder front holder) (enabled : Option Bool)
    (file : Option String) : (w.configure enabled file).InOrder front holder := by
  unfold LogWriter.configure
  dsimp only
  split
  · exact ⟨h.leads, h.opened, h.current_eq, h.usable, h.holds, h.awaited_eq⟩
  · have hleads := h.leads
    unfold next at hleads
    refine ⟨?_, ?_, nofun, h.usable, h.holds, h.awaited_eq⟩
    · -- the stream that is ended is the last one, so the next one will be the one behind it
      cases hcurrent : w.current with
      | none =>
        rw [hcurrent] at hleads
        simpa [next] using hleads
      | some s =>
        rw [hcurrent] at hleads
        exact hleads.append ⟨rfl, (h.current_eq s hcurrent).1⟩
    · intro s entry hmem
      refine h.opened s entry ?_
      cases w.current <;> simpa using hmem

theorem promised_configure (enabled : Option Bool) (file : Option String) :
    (w.configure enabled file).promised = w.promised.configure enabled file := by
  unfold LogWriter.configure
  dsimp only
  split
  · next hname => exact congrArg (Journal.mk _ · _ _ _) hname.symm
  · have hqueued : (w.queue ++ (w.current.map LogTask.finish).toList).filterMap
        (LogTask.line? w.streams) = w.queued := by
      cases w.current <;> simp [queued, LogTask.line?]
    exact congrArg (fun entries => Journal.mk _ _ (w.written ++ w.held ++ entries) _ _) hqueued

theorem InOrder.open (h : w.InOrder front holder) : w.opened.2.InOrder front holder ∧
    w.opened.2.current = some w.opened.1 ∧ w.opened.2.promised = w.promised := by
  unfold LogWriter.opened
  cases hcurrent : w.current with
  | some s => exact ⟨h, hcurrent, rfl⟩
  | none =>
    have hconcat := LogStream.getElem?_concat w.streams { file := w.file }
    refine ⟨⟨?_, ?_, ?_, ?_, ?_, h.awaited_eq⟩, rfl, ?_⟩
    · have hleads := h.leads
      unfold next at hleads
      rwa [hcurrent] at hleads
    · intro s entry hmem
      rw [List.length_append]
      exact Nat.lt_add_right 1 (h.opened s entry hmem)
    · rintro s hs
      obtain rfl := Option.some.inj hs
      refine ⟨by simp, ?_⟩
      rw [List.getElem?_concat_length]
      rfl
    · intro s hs
      rcases hconcat s with hsame | hfresh
      · rw [hsame]
        exact h.usable s hs
      · rw [hfresh]
        simp
    · intro s hs
      refine h.holds s fun hheld => hs ?_
      unfold heldBy at hheld ⊢
      rcases hconcat s with hsame | hfresh
      · rwa [hsame]
      · rw [hfresh]
        rfl
    · unfold promised held queued
      have hqueued : w.queue.filterMap (LogTask.line? (w.streams ++ [{ file := w.file }])) =
          w.queue.filterMap (LogTask.line? w.streams) := by
        refine List.filterMap_congr fun task htask => ?_
        cases task with
        | hand s entry =>
          rw [LogTask.line?, LogTask.line?, List.getElem?_append_left (h.opened s entry htask)]
        | finish s => rfl
      rw [hqueued, List.flatMap_append]
      simp [LogStream.lines]

theorem InOrder.log (h : w.InOrder front holder) (entry : LogEntry) :
    (w.log entry).InOrder front holder ∧ (w.log entry).promised = w.promised.log entry := by
  unfold LogWriter.log
  cases henabled : w.enabled with
  | false => exact ⟨h, by simp [Journal.log, promised, henabled]⟩
  | true =>
    obtain ⟨hopen, hcurrent, hpromised⟩ := h.open
    rw [← hpromised, if_pos rfl]
    have hon : w.opened.2.enabled = true := by
      rw [← henabled]
      exact congrArg Journal.enabled hpromised
    generalize w.opened = stream at hopen hcurrent hon ⊢
    obtain ⟨s, w₁⟩ := stream
    dsimp only at hopen hcurrent hon ⊢
    obtain ⟨hlast, hfile⟩ := hopen.current_eq s hcurrent
    have hnext : w₁.next = s := by rw [next, hcurrent, Option.getD_some]
    constructor
    · refine ⟨?_, ?_, hopen.current_eq, hopen.usable, hopen.holds, hopen.awaited_eq⟩
      · exact hopen.leads.append ⟨hnext.symm, rfl⟩
      · intro k other hmem
        rcases List.mem_append.mp hmem with hmem | hmem
        · exact hopen.opened k other hmem
        · cases List.mem_singleton.mp hmem
          exact Nat.lt_of_succ_le (Nat.le_of_eq hlast)
    · have hline : LogTask.line? w₁.streams (.hand s entry) = some (w₁.file, entry) := by
        obtain ⟨stream, hs, hsame⟩ := Option.map_eq_some_iff.mp hfile
        rw [LogTask.line?, hs, ← hsame]
        rfl
      have hqueued : (w₁.queue ++ [LogTask.hand s entry]).filterMap (LogTask.line? w₁.streams) =
          w₁.queued ++ [(w₁.file, entry)] := by
        rw [List.filterMap_append, List.filterMap_cons_some hline]
        rfl
      rw [Journal.log, if_pos (show w₁.promised.enabled = true from hon)]
      refine congrArg (Journal.mk _ _ · _ _) ?_
      exact (congrArg (w₁.written ++ w₁.held ++ ·) hqueued).trans (List.append_assoc _ _ _).symm

/-- A writer without tasks that ends its open stream goes on with the one behind it. -/
theorem InOrder.release (h : w.InOrder front front) (hidle : w.isIdle = true)
    (hcurrent : w.current = some s) :
    w.release.InOrder (s + 1) s ∧ w.release.promised = w.promised := by
  obtain ⟨hqueue, hawaited⟩ := isIdle_iff.mp hidle
  have hleads := h.leads
  rw [hqueue, next, hcurrent] at hleads
  obtain rfl : front = s := hleads
  have hlast := (h.current_eq front hcurrent).1
  unfold LogWriter.release
  rw [hcurrent]
  refine ⟨h.modify LogStream.file_finish (Nat.le_succ front)
    (fun hle => absurd hle (Nat.not_succ_le_self front)) rfl rfl nofun (List.Subset.refl _)
    ?_ (fun k hk => ?_), ?_⟩
  · rw [hqueue, next, Option.getD_none, List.length_modify]
    exact hlast
  · cases hawaited.symm.trans hk
  · unfold promised held queued
    dsimp only
    rw [LogStream.flatMap_modify LogStream.lines_finish, LogTask.line?_modify LogStream.file_finish]

theorem InOrder.hand (h : w.InOrder front front) {entry : LogEntry} {rest : List LogTask}
    (hqueue : w.queue = .hand s entry :: rest) {awaited : Option Nat}
    (hawaited : ∀ k, awaited = some k → k = s) {w' : LogWriter}
    (hw' : w' = { w with
      streams := w.streams.modify s (LogStream.hand entry), queue := rest, awaited := awaited }) :
    w'.InOrder front front ∧ w'.promised = w.promised := by
  have hmem : LogTask.hand s entry ∈ w.queue := hqueue ▸ List.mem_cons_self
  have hleads := h.leads
  rw [hqueue] at hleads
  obtain ⟨rfl, hrest⟩ := hleads
  obtain ⟨stream, hs⟩ : ∃ stream, w.streams[s]? = some stream :=
    ⟨_, List.getElem?_eq_getElem (h.opened s entry hmem)⟩
  have hopen : stream.ended = false := by simpa [hs] using h.usable s (Nat.le_refl s)
  have horder : w'.InOrder s s := by
    subst hw'
    refine h.modify (LogStream.file_hand entry) (Nat.le_refl s)
      (fun _ => LogStream.ended_hand entry) rfl rfl (fun _ => id) ?_ ?_ hawaited
    · rw [hqueue]
      exact List.subset_cons_self _ _
    · rwa [next, List.length_modify]
  refine ⟨horder, ?_⟩
  have hheld : w'.held = w.held ++ [(stream.file, entry)] := by
    rw [horder.held_eq, h.held_eq, hw']
    simp [hs, LogStream.lines, LogStream.held_hand hopen]
  have hqueued : w.queued = (stream.file, entry) :: w'.queued := by
    rw [queued, queued, hqueue, hw', LogTask.line?_modify (LogStream.file_hand entry)]
    simp [LogTask.line?, hs]
  unfold promised
  rw [hheld, hqueued, hw']
  simp

theorem InOrder.finish (h : w.InOrder front front) {rest : List LogTask}
    (hqueue : w.queue = .finish s :: rest) {w' : LogWriter}
    (hw' : w' = { w with
      streams := w.streams.modify s LogStream.finish, queue := rest, awaited := some s }) :
    w'.InOrder (front + 1) front ∧ w'.promised = w.promised := by
  have hleads := h.leads
  rw [hqueue] at hleads
  obtain ⟨rfl, hrest⟩ := hleads
  subst hw'
  refine ⟨h.modify LogStream.file_finish (Nat.le_succ s)
    (fun hle => absurd hle (Nat.not_succ_le_self s)) rfl rfl (fun _ => id)
    ?_ ?_ (fun k hk => (Option.some.inj hk).symm), ?_⟩
  · rw [hqueue]
    exact List.subset_cons_self _ _
  · rwa [next, List.length_modify]
  · unfold promised held queued
    dsimp only
    rw [LogStream.flatMap_modify LogStream.lines_finish, LogTask.line?_modify LogStream.file_finish,
      hqueue]
    rfl

theorem InOrder.advance? (h : w.InOrder front holder) (hfront : w.awaited = none → holder = front)
    (hmove : w.advance? full = some w') : ∃ front' holder', w'.InOrder front' holder' ∧
      (w'.awaited = none → holder' = front') ∧ w'.promised = w.promised := by
  unfold LogWriter.advance? at hmove
  split at hmove
  · next s hawaited =>
    split at hmove
    · next hheld =>
      cases hmove
      rw [List.isEmpty_iff, h.awaited_eq s hawaited] at hheld
      exact ⟨front, front, h.of_heldBy_eq hheld front, fun _ => rfl, rfl⟩
    · cases hmove
  · cases hmove
  · next s entry rest hawaited hqueue =>
    cases hmove
    rw [hfront hawaited] at h
    have hfull : ∀ k, (if full then some s else none) = some k → k = s := by
      intro k hk
      split at hk <;> cases hk
      rfl
    obtain ⟨horder, hpromised⟩ := h.hand hqueue hfull rfl
    exact ⟨front, front, horder, fun _ => rfl, hpromised⟩
  · next s rest hawaited hqueue =>
    cases hmove
    rw [hfront hawaited] at h
    obtain ⟨horder, hpromised⟩ := h.finish hqueue rfl
    exact ⟨front + 1, front, horder, nofun, hpromised⟩

/-- A stream that appends is the one that holds entries, and appends the first of them. -/
theorem InOrder.append? (h : w.InOrder front holder) (hmove : w.append? s = some w') :
    w'.InOrder front holder ∧ w'.promised = w.promised ∧ w'.awaited = w.awaited ∧
      w'.queue = w.queue ∧ w'.current = w.current := by
  unfold LogWriter.append? at hmove
  split at hmove
  · next file entry held ended hs =>
    obtain rfl : s = holder := h.holds s (by simp [heldBy, hs])
    have horder : w'.InOrder front s := by
      cases hmove
      refine h.modify LogStream.file_tail (Nat.le_refl front) (fun _ => LogStream.ended_tail)
        rfl rfl (fun _ => id) (List.Subset.refl _) ?_ h.awaited_eq
      have hleads := h.leads
      rwa [next, List.length_modify]
    have hheld : w.held = (file, entry) :: w'.held := by
      rw [horder.held_eq, h.held_eq]
      cases hmove
      simp [hs, LogStream.lines]
    cases hmove
    refine ⟨horder, ?_, rfl, rfl, rfl⟩
    unfold promised
    rw [hheld, queued, queued, LogTask.line?_modify LogStream.file_tail]
    simp
  · cases hmove

end LogWriter
end TableQuery
