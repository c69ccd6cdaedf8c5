import ConsensusCore.Concurrency.Sequencer.Basic
import ConsensusCore.Concurrency.Simulation

/-!
# Callers of a sequencer

One caller drives a sequencer (`Call.drive`): it admits tasks, each of which gets a
worker, and takes what the workers bring, until all results are out or the sequencer
is stopped. If it is withdrawn its workers are gone, and their tasks wait again; no
worker is lost otherwise. Other callers stop the sequencer, and wait until nothing is
being worked on.

What the work on a task comes to, and how long it takes, is planned with the task,
call by call; the calls are counted by the name of the task.
-/

namespace ConsensusCore

namespace Sequencer

/-- What is planned for a call of the processor. -/
inductive Plan where
  | success
  | failure
  | panic
deriving DecidableEq

/-- A task, and how long each call for it takes and how it ends; the last holds for
    all further calls. -/
structure Task where
  name : String
  plan : List (Duration × Plan)
deriving DecidableEq

/-- What is planned for the `n`th call for a task. -/
def Task.planned (t : Task) (n : Nat) : Duration × Plan :=
  (t.plan[min n t.plan.length - 1]?).getD (.zero, .success)

/-- How the `n`th call for a task ends. -/
def Task.outcome (t : Task) (n : Nat) : Plan → Outcome String
  | .success => .success (t.name ++ s!"!{n}")
  | .failure => .failure (t.name ++ s!" failed on call {n}")
  | .panic => .panic

/-- How far a worker is. -/
inductive Stage where
  | fresh
  /-- Pausing before it tries again. -/
  | resting (deadline : Nat)
  | processing (deadline : Nat) (outcome : Outcome String)
  | finished (outcome : Outcome String)
deriving DecidableEq

/-- A worker of a caller. -/
structure Worker where
  owner : Caller
  entry : Numbered Task
  stage : Stage
deriving DecidableEq

/-- What a caller waits for. -/
inductive Call where
  /-- Drives the sequencer. -/
  | drive
  /-- Stops the sequencer, and resets it afterwards if so wanted. -/
  | stop (reset : Bool)
  /-- The sequencer is stopped; waits until nothing is being worked on. -/
  | stopping (reset : Bool)
deriving DecidableEq

/-- What happens. -/
inductive Event where
  /-- The processor is called for a task, for the `n`th time. -/
  | process (task : String) (n : Nat)
  | notice (notice : Notice Task String)
  /-- All results are out. -/
  | finished (caller : Caller)
  | failed (caller : Caller) (error : PrimitiveError)
  /-- The sequencer is stopped and empty. -/
  | stopped (caller : Caller) (reset : Bool)

/-- What is done to a sequencer. -/
inductive Action where
  | insert (task : Task)

end Sequencer

/-- A sequencer with the workers, and how often the processor has been called for
    each name. -/
structure DrivenSequencer where
  sequencer : Sequencer Sequencer.Task String
  workers : List Sequencer.Worker
  called : List (String × Nat)

namespace DrivenSequencer

open Sequencer

/-- A sequencer without tasks or workers. -/
def new (config : SequencerConfig) : Except PrimitiveError DrivenSequencer :=
  (Sequencer.new config).map fun sequencer => ⟨sequencer, [], []⟩

/-- Admits tasks, each with a worker of a caller. -/
def assign (w : DrivenSequencer) (caller : Caller) : DrivenSequencer :=
  let (entries, sequencer) := w.sequencer.admitAll
  { w with sequencer, workers := w.workers ++ entries.map fun e => ⟨caller, e, .fresh⟩ }

/-- The first worker of a caller that is finished, with the others. -/
def takeFinished (caller : Caller) : List Worker → Option (Numbered Task × Outcome String × List Worker)
  | [] => none
  | v :: vs =>
    match v.owner == caller, v.stage with
    | true, .finished o => some (v.entry, o, vs)
    | _, _ => (takeFinished caller vs).map fun (e, o, rest) => (e, o, v :: rest)

/-- Takes what one worker of a caller brings, and admits tasks again; `none` if none
    is finished. -/
def collect (w : DrivenSequencer) (caller : Caller) : Option (DrivenSequencer × List Event) :=
  (takeFinished caller w.workers).map fun (e, o, workers) =>
    let (sequencer, notices) := w.sequencer.complete e o
    ({ w with sequencer, workers }.assign caller, notices.map .notice)

/-- Takes what the workers of a caller bring, at most `n` times. -/
def collectUpTo (caller : Caller) : Nat → DrivenSequencer → DrivenSequencer × List Event
  | 0, w => (w, [])
  | n + 1, w =>
    match w.collect caller with
    | none => (w, [])
    | some (w, events) =>
      let (w, more) := collectUpTo caller n w
      (w, events ++ more)

/-- Withdraws a caller that drives the sequencer, with its workers. -/
def abandon (w : DrivenSequencer) (caller : Caller) : DrivenSequencer :=
  { w with
    sequencer := w.sequencer.release
    workers := w.workers.filter fun v => !(v.owner == caller) }

/-- Drives the sequencer as far as it goes; `none` if it has to wait. -/
def drive (w : DrivenSequencer) (caller : Caller) : Option (Polled DrivenSequencer Call Event) :=
  let admitted := w.assign caller
  let (w', events) := admitted.collectUpTo caller admitted.workers.length
  if w'.workers.any (·.owner == caller) then
    if events.isEmpty && w'.workers == w.workers then none
    else some ⟨w', some .drive, events⟩
  else if w'.sequencer.aborted then
    some ⟨w'.abandon caller, none, events ++ [.failed caller .aborted]⟩
  else if w'.sequencer.finished then
    some ⟨w'.abandon caller, none, events ++ [.finished caller]⟩
  else if events.isEmpty && w'.workers == w.workers then none
  else some ⟨w', some .drive, events⟩

/-- Empties a stopped sequencer once nothing is being worked on; `none` before. -/
def settle (w : DrivenSequencer) (caller : Caller) (reset : Bool) : Option (Polled DrivenSequencer Call Event) :=
  if w.sequencer.running.isEmpty then
    let cleared := w.sequencer.clear
    let sequencer := if reset then { cleared with aborted := false } else cleared
    some ⟨{ w with sequencer }, none, [.stopped caller reset]⟩
  else none

/-- Polls the call of a caller. -/
def poll (w : DrivenSequencer) (caller : Caller) : Call → Option (Polled DrivenSequencer Call Event)
  | .drive => w.drive caller
  | .stop reset =>
    let w := { w with sequencer := w.sequencer.stop }
    some ((w.settle caller reset).getD ⟨w, some (.stopping reset), []⟩)
  | .stopping reset => w.settle caller reset

/-- Withdraws the call of a caller. -/
def withdraw (w : DrivenSequencer) (caller : Caller) : Call → DrivenSequencer
  | .drive => w.abandon caller
  | .stop _ | .stopping _ => w

/-- Replaces the `i`th worker. -/
def update (w : DrivenSequencer) (i : Nat) (v : Worker) (stage : Stage) : DrivenSequencer :=
  { w with workers := w.workers.set i { v with stage } }

/-- Calls the processor. -/
def process (now : Nat) (w : DrivenSequencer) (i : Nat) (v : Worker) : DrivenSequencer × List Event :=
  let task := v.entry.task
  let n := (w.called.lookup task.name).getD 0 + 1
  let (span, plan) := task.planned n
  let w := { w with called := (task.name, n) :: w.called.filter fun c => !(c.1 == task.name) }
  (w.update i v (.processing (Moment.wake now span) (task.outcome n plan)), [.process task.name n])

/-- Lets a worker go on; `none` if it has to wait. -/
def workOn (now : Nat) (w : DrivenSequencer) (i : Nat) (v : Worker) : Option (DrivenSequencer × List Event) :=
  match v.stage with
  | .fresh =>
    let backoff := w.sequencer.config.backoff
    if 0 < v.entry.attempt ∧ backoff ≠ .zero then
      some (w.update i v (.resting (Moment.wake now backoff)), [])
    else some (w.process now i v)
  | .resting deadline => if deadline ≤ now then some (w.process now i v) else none
  | .processing deadline o =>
    if deadline ≤ now then some (w.update i v (.finished o), []) else none
  | .finished _ => none

/-- Lets the first worker go on that need not wait. -/
def work (now : Nat) (w : DrivenSequencer) : Option (DrivenSequencer × List Event) :=
  w.workers.zipIdx.findSome? fun (v, i) => w.workOn now i v

/-- When the timer of a worker ends. -/
def due (v : Worker) : Option Nat :=
  match v.stage with
  | .resting deadline | .processing deadline _ => some deadline
  | _ => none

/-- Carries out an action: the number of the task, if it was put in. -/
def act (w : DrivenSequencer) : Action → Option Nat × DrivenSequencer
  | .insert task =>
    match w.sequencer.insert? task with
    | some (index, sequencer) => (some index, { w with sequencer })
    | none => (none, w)

/-- A bound on the steps that the work on some tasks takes at one moment, if it comes
    to an end. -/
def steps (entries : List (Numbered Task)) : Nat :=
  entries.foldl (fun n e => n + 4 * (e.task.plan.length + 2)) 0

instance : Primitive DrivenSequencer Action (Option Nat) Call Event where
  act _ a w := w.act a
  poll _ caller c w := w.poll caller c
  withdraw caller c w := w.withdraw caller c
  due _ := none
  work now w := w.work now
  workDue w := (w.workers.filterMap due).min?
  workload w := steps (w.sequencer.input ++ w.sequencer.running)

end DrivenSequencer

end ConsensusCore
