import ConsensusCore.Concurrency.Simulation
import ConsensusCore.Message.Input

/-!
# The ticker

The ticker keeps one timeout pending. Of the timeouts that are scheduled it accepts
those that are ahead of all it has accepted before, in the order of heights, rounds
and steps; the one it accepts takes the place of the pending one. When the time of
the pending timeout is over it is delivered.

Requests come through a mailbox. Once the ticker is stopped nothing is delivered any
more, and that is told once (`Ticker.Event.closed`).
-/

namespace ConsensusCore

/-- The ticker. -/
structure Ticker where
  /-- The requests that the ticker has not looked at. -/
  inbox : List Timeout
  /-- The latest position of an accepted timeout. -/
  latest : Option RoundStep
  /-- The pending timeout, and when it is delivered. -/
  pending : Option (Timeout × Nat)
  /-- Whether the ticker is to stop. -/
  stopping : Bool
  running : Bool
  /-- Whether the ticker is still in someone's hands. -/
  held : Bool

namespace Ticker

/-- A year of 365 days: timeouts that take longer are delivered after that. -/
def maxSpan : Duration := .ofMillis (1000 * 60 * 60 * 24 * 365)

/-- A ticker that has just been started. -/
def start : Ticker := ⟨[], none, none, false, true, true⟩

/-- Requests a timeout. -/
def schedule (k : Ticker) (t : Timeout) : Ticker :=
  if k.running then { k with inbox := k.inbox ++ [t] } else k

/-- Whether a timeout is ahead of all that have been accepted. -/
def ahead (k : Ticker) (t : Timeout) : Bool :=
  match k.latest with
  | none => true
  | some latest => decide (latest < t.roundStep)

/-- How long a timeout is pending. -/
def span (t : Timeout) : Duration := if t.duration.toNanos ≤ maxSpan.toNanos then t.duration else maxSpan

/-- Looks at a request. -/
def accept (now : Nat) (k : Ticker) (t : Timeout) : Ticker :=
  if k.ahead t then
    { k with latest := some t.roundStep, pending := some (t, Moment.after now (span t)) }
  else k

/-- The pending timeout if its time is over. -/
def fire? (now : Nat) (k : Ticker) : Option (Timeout × Ticker) :=
  match k.pending with
  | some (t, deadline) => if deadline ≤ now then some (t, { k with pending := none }) else none
  | none => none

/-- What the ticker tells. -/
inductive Event where
  | delivered (t : Timeout)
  /-- Nothing will be delivered any more. -/
  | closed

/-- What is done to the ticker. -/
inductive Action where
  | schedule (t : Timeout)
  | stop
  /-- Lets the ticker go, which stops it. -/
  | drop

/-- Carries out an action. -/
def act (k : Ticker) : Action → Ticker
  | .schedule t => k.schedule t
  | .stop => { k with stopping := true }
  | .drop => { k with stopping := true, held := false }

/-- A step of the ticker; `none` if it has to wait. -/
def work (now : Nat) (k : Ticker) : Option (Ticker × List Event) :=
  if !k.running then none
  else if k.stopping then some ({ k with running := false, inbox := [], pending := none }, [.closed])
  else
    match k.inbox with
    | t :: inbox => some ({ k with inbox }.accept now t, [])
    | [] => (k.fire? now).map fun (t, k) => (k, [.delivered t])

instance : Primitive Ticker Action Unit Empty Event where
  act _ a k := ((), k.act a)
  poll _ _ c _ := c.elim
  withdraw _ _ k := k
  due c := c.elim
  work now k := k.work now
  workDue k := k.pending.map (·.2)
  workload k := k.inbox.length + 2

end Ticker

end ConsensusCore
