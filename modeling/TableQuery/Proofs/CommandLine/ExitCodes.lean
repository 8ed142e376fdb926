import TableQuery.CommandLine.Run

/-! # Exit codes

A run that answers its request writes one output and no error, and ends with code 0. Any other
run writes one error and no output, and ends with code 1. Whatever breaks off does so before
anything is written, so that its reason can still be reported.
-/
namespace TableQuery.CommandLine

def Message.isOutput : Message → Bool
  | output _ => true
  | _ => false

def Message.isError : Message → Bool
  | error _ => true
  | _ => false

/-- Whether the messages of a run are those that belong to its exit code. -/
def Accords (code : Nat) (messages : List Message) : Prop :=
  (code = 0 ∧ messages.countP Message.isOutput = 1 ∧ messages.countP Message.isError = 0) ∨
    (code = 1 ∧ messages.countP Message.isOutput = 0 ∧ messages.countP Message.isError = 1)

namespace Running
variable {α β ε : Type}

/-- A step that writes nothing, whether or not it breaks off. -/
def Silent (x : Running α) : Prop := ∀ p, (x.run.run p).2.messages = p.messages

/-- A run that ends with a code, and with messages that accord with it. -/
def Ends (x : Running Nat) : Prop :=
  ∀ p, ∃ code written, (x.run.run p).1 = .ok code ∧
    (x.run.run p).2.messages = p.messages ++ written ∧ Accords code written

/-- A run that ends in this way, or breaks off before it has written anything. -/
def Disciplined (x : Running Nat) : Prop :=
  ∀ p, (∃ code written, (x.run.run p).1 = .ok code ∧
      (x.run.run p).2.messages = p.messages ++ written ∧ Accords code written) ∨
    ∃ reason, (x.run.run p).1 = .error reason ∧ (x.run.run p).2.messages = p.messages

theorem run_bind (x : Running α) (f : α → Running β) (p : Progress) :
    (x >>= f).run.run p =
      match (x.run.run p).1 with
      | .ok a => (f a).run.run (x.run.run p).2
      | .error reason => (.error reason, (x.run.run p).2) := by
  change (ExceptT.bindCont f (x.run.run p).1).run (x.run.run p).2 = _
  cases (x.run.run p).1 <;> rfl

theorem run_tryCatch (x : Running α) (handle : String → Running α) (p : Progress) :
    (tryCatch x handle : Running α).run.run p =
      match (x.run.run p).1 with
      | .ok a => (.ok a, (x.run.run p).2)
      | .error reason => (handle reason).run.run (x.run.run p).2 := by
  change StateT.run (ExceptT.tryCatch x handle).run p = _
  unfold ExceptT.tryCatch
  rw [ExceptT.run_mk, StateT.run_bind]
  cases hx : x.run.run p with
  | mk result q =>
    have hrun : StateT.run x p = (result, q) := hx
    rw [hrun]
    cases result <;> rfl

theorem silent_record (x : Recorded α) : Silent (record x) := fun _ => rfl

theorem silent_liftM (x : Except String α) : Silent (liftM x) := fun _ => rfl

theorem Silent.bind {x : Running α} {f : α → Running β} (hx : Silent x) (hf : ∀ a, Silent (f a)) :
    Silent (x >>= f) := by
  intro p
  rw [run_bind]
  cases (x.run.run p).1 with
  | error reason => exact hx p
  | ok a => exact (hf a _).trans (hx p)

theorem silent_attempt (message : ε → String) (x : ExceptT ε (StateM Journal) α) :
    Silent (attempt message x) := by
  refine .bind (silent_record x.run) fun result => ?_
  cases result with
  | ok a => exact fun _ => rfl
  | error e => exact fun _ => rfl

theorem ends_output (text : String) : Ends (do output text; pure 0) :=
  fun _ => ⟨0, [.output text], rfl, rfl, Or.inl ⟨rfl, rfl, rfl⟩⟩

theorem ends_misuse (text : String) : Ends (misuse text) :=
  fun _ => ⟨1, [.error text, .info usage], rfl, List.append_assoc .., Or.inr ⟨rfl, rfl, rfl⟩⟩

theorem ends_report (reason : String) : Ends (report reason) :=
  fun _ => ⟨1, [.error reason], rfl, rfl, Or.inr ⟨rfl, rfl, rfl⟩⟩

theorem ends_answerResponse (r : Response) : Ends (answerResponse r) := by
  cases r with
  | success format count data =>
    exact fun _ => ⟨0, [.output (renderedText data), .info (countText count)], rfl,
      List.append_assoc .., Or.inl ⟨rfl, rfl, rfl⟩⟩
  | failure format f => exact ends_report f.message

theorem Ends.disciplined {x : Running Nat} (h : Ends x) : Disciplined x := fun p => Or.inl (h p)

theorem Disciplined.behind {x : Running α} {f : α → Running Nat} (hx : Silent x)
    (hf : ∀ a, Disciplined (f a)) : Disciplined (x >>= f) := by
  intro p
  rw [run_bind]
  have hsilent := hx p
  cases (x.run.run p).1 with
  | error reason => exact Or.inr ⟨reason, rfl, hsilent⟩
  | ok a =>
    rw [← hsilent]
    exact hf a _

theorem Disciplined.reported {x : Running Nat} (h : Disciplined x) : Ends (tryCatch x report) := by
  intro p
  rw [run_tryCatch]
  rcases h p with ⟨code, written, hcode, hends⟩ | ⟨reason, hreason, hmessages⟩
  · rw [hcode]
    exact ⟨code, written, rfl, hends⟩
  · rw [hreason, ← hmessages]
    exact ends_report reason _

theorem disciplined_answer (o : Options) (e : Engine) (p : Provider) :
    Disciplined (answer o e p) := by
  unfold answer
  split
  · exact .behind (silent_attempt _ _) fun _ => (ends_output _).disciplined
  split
  · exact .behind (silent_attempt _ _) fun _ => (ends_output _).disciplined
  · exact .behind (silent_liftM _) fun text => (ends_output text).disciplined
  · exact (ends_misuse _).disciplined
  · exact .behind (silent_record _) fun r => (ends_answerResponse r).disciplined

theorem disciplined_runOn (files : String → FileContent) (o : Options) (dataFile : String) :
    Disciplined (runOn files o dataFile) := by
  refine .behind (silent_liftM _) fun s => ?_
  refine .behind (silent_record _) fun _ => ?_
  exact .behind (silent_liftM _) fun catalog => disciplined_answer o ⟨s⟩ catalog.provider

theorem ends_exitCode (files : String → FileContent) (arguments : List String) :
    Ends (exitCode files arguments) := by
  unfold exitCode
  split
  · exact ends_misuse _
  split
  · exact ends_output usage
  split
  · exact ends_misuse _
  · exact (disciplined_runOn files _ _).reported

end Running

/-- Every run ends with an exit code, 0 or 1: with 0 exactly when it wrote one output and no
error, and with 1 exactly when it wrote no output and one error. -/
theorem exists_exitCode (files : String → FileContent) (arguments : List String) (p : Progress) :
    ∃ code written, ((exitCode files arguments).run.run p).1 = .ok code ∧
      ((exitCode files arguments).run.run p).2.messages = p.messages ++ written ∧
      (code = 0 ∨ code = 1) ∧
      (code = 0 ↔ written.countP Message.isOutput = 1 ∧ written.countP Message.isError = 0) ∧
      (code = 1 ↔ written.countP Message.isOutput = 0 ∧ written.countP Message.isError = 1) := by
  obtain ⟨code, written, hcode, hmessages, haccords⟩ := Running.ends_exitCode files arguments p
  refine ⟨code, written, hcode, hmessages, ?_⟩
  rcases haccords with ⟨rfl, houtputs, herrors⟩ | ⟨rfl, houtputs, herrors⟩
  · simp [houtputs, herrors]
  · simp [houtputs, herrors]

end TableQuery.CommandLine
