import Stackling.Pipeline

/-!
# Compiling several sources at once

Each source is a task of its own. A task first looks whether the work was called off, then
compiles, then stores its result or reports its error. The first report is kept and calls the work
off, so that tasks which have not begun do not begin; a task that finds the work called off
reports just that. The answer is given when every task is done.

Tasks may be interleaved in any way, so the state of a batch and the single moves of its tasks are
explicit here and a schedule is a list of task numbers. `compileAll` runs the tasks one after the
other.
-/

namespace Stackling

/-- A named source text. -/
structure NamedSource where
  name : Bytes
  text : Bytes
  deriving DecidableEq, Repr

/-- Why a batch fails. -/
inductive BatchError where
  | source (name : Bytes) (e : CompileError)
  | cancelled
  deriving DecidableEq, Repr

/-- The failure with the name of its source. -/
def BatchError.report : BatchError → Report
  | source name e => e.report.within name
  | cancelled => .of (.other (Bytes.ofString "context canceled"))

namespace Batch

/-- How far a task has come. -/
inductive Phase where
  /-- it has not looked yet whether the work was called off -/
  | waiting
  /-- it compiles -/
  | compiling
  /-- its report was the first; it is about to call the work off -/
  | callingOff
  /-- it has ended -/
  | done (result : Option Compiled)
  deriving Repr

/-- A task: its source and how far it has come. -/
structure Task where
  source : NamedSource
  phase : Phase
  deriving Repr

/-- The state of a batch. -/
structure State where
  tasks : List Task
  /-- was the work called off? -/
  calledOff : Bool
  /-- the first report -/
  reported : Option BatchError
  deriving Repr

/-- The state before any task has moved. -/
def start (cancelled : Bool) (sources : List NamedSource) : State :=
  ⟨sources.map fun s => ⟨s, .waiting⟩, cancelled, none⟩

/-- A report of task `i`: the first one counts and will call the work off. -/
def State.report (s : State) (i : Nat) (t : Task) (e : BatchError) : State :=
  match s.reported with
  | none => { s with tasks := s.tasks.set i { t with phase := .callingOff }, reported := some e }
  | some _ => { s with tasks := s.tasks.set i { t with phase := .done none } }

/-- The next move of task `i`. -/
def State.step (entry : String) (s : State) (i : Nat) : State :=
  match s.tasks[i]? with
  | none => s
  | some t =>
    match t.phase with
    | .waiting =>
      if s.calledOff then s.report i t .cancelled
      else { s with tasks := s.tasks.set i { t with phase := .compiling } }
    | .compiling =>
      match compile t.source.text entry with
      | .ok unit => { s with tasks := s.tasks.set i { t with phase := .done (some unit) } }
      | .error e => s.report i t (.source t.source.name e)
    | .callingOff =>
      { s with tasks := s.tasks.set i { t with phase := .done none }, calledOff := true }
    | .done _ => s

/-- Moves tasks in the order of a schedule. -/
def State.run (entry : String) (s : State) (schedule : List Nat) : State :=
  schedule.foldl (State.step entry) s

/-- Has every task ended? -/
def State.isDone (s : State) : Bool :=
  s.tasks.all fun t => match t.phase with
    | .done _ => true
    | _ => false

/-- What a finished batch answers: the first report, or the results in the order of the sources,
each with its name. -/
def State.answer (s : State) : Except BatchError (List (Bytes × Compiled)) :=
  match s.reported with
  | some e => .error e
  | none => .ok (s.tasks.filterMap fun t => match t.phase with
      | .done (some unit) => some (t.source.name, unit)
      | _ => none)

/-- The schedule that finishes each task before the next begins. A task makes at most three
moves. -/
def inOrder (n : Nat) : List Nat := (List.range n).flatMap fun i => [i, i, i]

end Batch

/-- Compiles every source to a program that starts in the function called `entry`. -/
def compileAll (cancelled : Bool) (sources : List NamedSource) (entry : String) :
    Except BatchError (List (Bytes × Compiled)) :=
  ((Batch.start cancelled sources).run entry (Batch.inOrder sources.length)).answer

end Stackling
