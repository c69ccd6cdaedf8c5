import ConsensusCore.Concurrency.Runner.Basic
import ConsensusCore.Concurrency.Simulation

/-!
# Callers of a runner

A caller submits a job and waits for its outcome; to give up that wait does not end
the job. A job takes a span of time, or as long as its gate is shut, and may break
off at the end. Others wait until nothing is left to do.

A job has the name and the number of the call by which it was submitted. Of the jobs
of one name only the last has a gate that is shut; to submit another one with a gate
opens those before.
-/

namespace ConsensusCore

namespace Runner

/-- How far a job is. -/
inductive Stage where
  | submitted
  /-- At work, until a moment. -/
  | timed (deadline : Nat)
  /-- At work, until its gate is opened. -/
  | gated
deriving DecidableEq

/-- A job. -/
structure Job where
  caller : Caller
  /-- The time it takes; `none` if that is up to its gate. -/
  span : Option Duration
  /-- Whether it breaks off at the end. -/
  panics : Bool
  stage : Stage
deriving DecidableEq

/-- What a caller waits for. -/
inductive Call where
  /-- About to submit a job. -/
  | submit (span : Option Duration) (panics : Bool)
  /-- For the outcome of the job. -/
  | join
  /-- For nothing to be left to do. -/
  | idle
deriving DecidableEq

/-- What happens. -/
inductive Event where
  | started (job : Caller)
  | ended (job : Caller)
  /-- A caller has the outcome of its job. -/
  | joined (caller : Caller) (outcome : Except PrimitiveError String)
  /-- Nothing is left to do. -/
  | idle (caller : Caller)

/-- What is done to a runner. -/
inductive Action where
  /-- Opens the gate of the job of a name. -/
  | release (name : String)
  | describe

/-- The answer to an action. -/
inductive Answer where
  /-- Whether there was a gate that was shut. -/
  | released (found : Bool)
  | text (s : String)

end Runner

/-- A runner with the gates that are shut, and the outcomes of jobs. -/
structure Workshop where
  runner : Runner Runner.Job
  shut : List Caller
  outcomes : List (Caller × Except PrimitiveError String)

namespace Workshop

open Runner

/-- A workshop in which nothing has been done. -/
def new (limit : Nat) : Except PrimitiveError Workshop :=
  (Runner.new limit).map fun runner => ⟨runner, [], []⟩

/-- Opens the gate of the job of a name. -/
def openGate (w : Workshop) (name : String) : Workshop :=
  { w with shut := w.shut.filter fun caller => !(caller.name == name) }

/-- Shuts the gate of the job of a caller. -/
def shutGate (w : Workshop) (caller : Caller) : Workshop :=
  let w := w.openGate caller.name
  { w with shut := w.shut ++ [caller] }

/-- Polls the call of a caller. -/
def poll (w : Workshop) (caller : Caller) : Call → Option (Polled Workshop Call Event)
  | .submit span panics =>
    let w := if span.isNone then w.shutGate caller else w
    let runner := w.runner.submit ⟨caller, span, panics, .submitted⟩
    some ⟨{ w with runner }, some .join, []⟩
  | .join => (w.outcomes.lookup caller).map fun outcome => ⟨w, none, [.joined caller outcome]⟩
  | .idle => if w.runner.idle then some ⟨w, none, [.idle caller]⟩ else none

/-- Starts a job. -/
def begin (now : Nat) (w : Workshop) (i : Nat) (job : Job) : Workshop × List Event :=
  let stage := match job.span with
    | some span => .timed (Moment.wake now span)
    | none => .gated
  ({ w with runner := w.runner.update i { job with stage } }, [.started job.caller])

/-- Ends a job. -/
def finish (w : Workshop) (i : Nat) (job : Job) : Workshop × List Event :=
  let outcome := if job.panics then .error .taskPanicked else .ok job.caller.name
  ({ w with
      runner := w.runner.finish i
      outcomes := w.outcomes ++ [(job.caller, outcome)] },
    if job.panics then [] else [.ended job.caller])

/-- Does what can be done for a job; `none` if it has to wait. -/
def workOn (now : Nat) (w : Workshop) (i : Nat) (job : Job) : Option (Workshop × List Event) :=
  match job.stage with
  | .submitted => some (w.begin now i job)
  | .timed deadline => if deadline ≤ now then some (w.finish i job) else none
  | .gated => if job.caller ∈ w.shut then none else some (w.finish i job)

/-- Does what can be done for the first job that need not wait. -/
def work (now : Nat) (w : Workshop) : Option (Workshop × List Event) :=
  w.runner.running.zipIdx.findSome? fun (job, i) => w.workOn now i job

/-- When the timer of a job ends. -/
def due (job : Job) : Option Nat :=
  match job.stage with
  | .timed deadline => some deadline
  | _ => none

/-- Carries out an action. -/
def act (w : Workshop) : Action → Answer × Workshop
  | .release name => (.released (w.shut.any (·.name == name)), w.openGate name)
  | .describe => (.text w.runner.toText, w)

instance : Primitive Workshop Action Answer Call Event where
  act _ a w := w.act a
  poll _ caller c w := w.poll caller c
  withdraw _ _ w := w
  due _ := none
  work now w := w.work now
  workDue w := (w.runner.running.filterMap due).min?
  workload w := 2 * (w.runner.running.length + w.runner.queue.length)

end Workshop

end ConsensusCore
