import ConsensusCore.Concurrency.Error
import ConsensusCore.Concurrency.Simulation

/-!
# Timers

A timer on which at most one caller waits, for a given time or until the wait is
broken off. Waits are numbered, so that the end of one that was broken off does
not disturb a later one.
-/

namespace ConsensusCore

/-- A timer. -/
structure Timer where
  /-- The number of the last wait. -/
  last : Nat
  /-- The wait that can be broken off. -/
  active : Option Nat
  /-- The waits that have been broken off, and have not noticed. -/
  broken : List Nat
deriving DecidableEq, Repr

namespace Timer

/-- A timer that nobody has waited on. -/
def new : Timer := ⟨0, none, []⟩

/-- Begins a wait; fails if there is one. -/
def begin? (t : Timer) : Except PrimitiveError (Nat × Timer) :=
  match t.active with
  | some _ => .error .alreadyWaiting
  | none => .ok (t.last + 1, { t with last := t.last + 1, active := some (t.last + 1) })

/-- Breaks off the wait; `none` if there is none. -/
def abort? (t : Timer) : Option Timer :=
  t.active.map fun n => { t with active := none, broken := t.broken ++ [n] }

/-- The timer after a wait is over, for whatever reason. -/
def finish (t : Timer) (n : Nat) : Timer :=
  { t with
    active := if t.active = some n then none else t.active
    broken := t.broken.erase n }

/-- A wait on a timer. -/
inductive Wait where
  | fresh (span : Duration)
  /-- The wait of a number, until a moment. -/
  | sleeping (number : Nat) (deadline : Nat)
deriving DecidableEq

/-- What happens to a caller. -/
inductive Event where
  /-- The time is over. -/
  | elapsed (caller : Caller)
  /-- The wait was broken off. -/
  | aborted (caller : Caller)
  | failed (caller : Caller) (error : PrimitiveError)
deriving DecidableEq

/-- What is done to a timer. -/
inductive Action where
  /-- Breaks off the wait. -/
  | abort

/-- Looks whether a wait is over; `none` if it is not. -/
def asleep (now : Nat) (t : Timer) (caller : Caller) (n : Nat) (deadline : Nat) :
    Option (Polled Timer Wait Event) :=
  if n ∈ t.broken then some ⟨t.finish n, none, [.aborted caller]⟩
  else if deadline ≤ now then some ⟨t.finish n, none, [.elapsed caller]⟩
  else none

/-- Polls the wait of a caller. -/
def poll (now : Nat) (t : Timer) (caller : Caller) : Wait → Option (Polled Timer Wait Event)
  | .fresh span =>
    match t.begin? with
    | .error e => some ⟨t, none, [.failed caller e]⟩
    | .ok (n, t) =>
      let deadline := Moment.wake now span
      some ((t.asleep now caller n deadline).getD ⟨t, some (.sleeping n deadline), []⟩)
  | .sleeping n deadline => t.asleep now caller n deadline

/-- Withdraws a wait. -/
def withdraw (t : Timer) : Wait → Timer
  | .fresh _ => t
  | .sleeping n _ => t.finish n

instance : Primitive Timer Action Bool Wait Event where
  act _ _ t := (t.abort?.isSome, t.abort?.getD t)
  poll now caller w t := t.poll now caller w
  withdraw _ w t := t.withdraw w
  due
    | .fresh _ => none
    | .sleeping _ deadline => some deadline
  work _ _ := none
  workDue _ := none
  workload _ := 0

end Timer

end ConsensusCore
