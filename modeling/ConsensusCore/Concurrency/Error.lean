import ConsensusCore.Duration

/-!
# Errors of the primitives

Why a request to one of the concurrency primitives fails.
-/

namespace ConsensusCore

/-- Why a request to a primitive fails. -/
inductive PrimitiveError where
  /-- A count would be lowered below zero. -/
  | invalidDecrease (count by_ : Nat)
  /-- As many reads wait as may. -/
  | readQueueFull (max : Nat)
  /-- A read was not admitted in time. -/
  | readTimeout (limit : Duration)
  /-- Nothing could ever run within the limit. -/
  | invalidLimit (limit : Nat)
  /-- The task broke off. -/
  | taskPanicked
  /-- No handler was free in time. -/
  | handlerTimeout (limit : Duration)
  /-- The timer has been started before, and still runs. -/
  | alreadyWaiting
  /-- What was asked for has been given up. -/
  | aborted
deriving DecidableEq

/-- The error in words. -/
def PrimitiveError.message : PrimitiveError → String
  | .invalidDecrease count by_ => s!"cannot decrease count {count} by {by_}"
  | .readQueueFull max => s!"read queue is full ({max} waiting)"
  | .readTimeout limit => "read lock not acquired within " ++ limit.toText
  | .invalidLimit limit => s!"concurrency limit must be > 0, got {limit}"
  | .taskPanicked => "task panicked"
  | .handlerTimeout limit => "no handler became available within " ++ limit.toText
  | .alreadyWaiting => "timer is already waiting"
  | .aborted => "aborted"

end ConsensusCore
