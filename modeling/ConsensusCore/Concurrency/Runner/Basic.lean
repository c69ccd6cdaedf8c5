import ConsensusCore.Concurrency.Error

/-!
# Bounded runners

A runner works on a limited number of jobs at once; the others wait in the order
in which they were submitted. When a job is over, the one that has waited longest
takes its place.

* `length_running_submit`, `length_running_finish`: each of the two keeps the limit.
-/

namespace ConsensusCore

/-- A runner of jobs `τ`. -/
structure Runner (τ : Type) where
  limit : Nat
  /-- The jobs that are being worked on. -/
  running : List τ
  /-- The jobs that wait. -/
  queue : List τ

namespace Runner

variable {τ : Type}

/-- A runner without jobs; the limit must be positive. -/
def new (limit : Nat) : Except PrimitiveError (Runner τ) :=
  if limit = 0 then .error (.invalidLimit limit) else .ok ⟨limit, [], []⟩

/-- Submits a job. -/
def submit (r : Runner τ) (job : τ) : Runner τ :=
  if r.running.length < r.limit then { r with running := r.running ++ [job] }
  else { r with queue := r.queue ++ [job] }

/-- Replaces the `i`th of the jobs that are being worked on. -/
def update (r : Runner τ) (i : Nat) (job : τ) : Runner τ :=
  { r with running := r.running.set i job }

/-- Ends the `i`th of the jobs that are being worked on. -/
def finish (r : Runner τ) (i : Nat) : Runner τ :=
  match r.queue with
  | [] => { r with running := r.running.eraseIdx i }
  | next :: queue => { r with running := r.running.set i next, queue }

/-- Whether nothing is left to do. -/
def idle (r : Runner τ) : Bool := r.running.isEmpty && r.queue.isEmpty

/-- The runner in words. -/
def toText (r : Runner τ) : String :=
  s!"LimitedConcurrency \x7b limit: {r.limit}, running: {r.running.length}, " ++
    s!"queued: {r.queue.length} \x7d"

theorem length_running_submit {r : Runner τ} (h : r.running.length ≤ r.limit) (job : τ) :
    (r.submit job).running.length ≤ (r.submit job).limit := by
  unfold submit
  split
  · simp only [List.length_append, List.length_singleton]
    omega
  · exact h

theorem length_running_finish {r : Runner τ} (h : r.running.length ≤ r.limit) (i : Nat) :
    (r.finish i).running.length ≤ (r.finish i).limit := by
  unfold finish
  split
  · exact Nat.le_trans (List.length_eraseIdx_le ..) h
  · simpa using h

end Runner

end ConsensusCore
