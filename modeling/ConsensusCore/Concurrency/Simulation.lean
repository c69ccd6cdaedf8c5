import ConsensusCore.Concurrency.Clock

/-!
# Simulations

Callers share a primitive, on a clock that only moves when it is told to. A call
that cannot be answered at once waits: it is *polled* again and again, and each
poll takes it as far as it gets without waiting. It can also be withdrawn, at any
moment between two polls. Besides the calls there is the work that the primitive
does by itself.

A call is made under a name, and several may be under the same one. So each call has
a number as well (`Caller`), and a withdrawal by name is that of the first call that
waits under it.

Polls, actions, withdrawals and steps of that work are the atomic steps of a
simulation. What can be done at a moment is done by `Simulation.settle`, and
`Simulation.advance` moves the clock, with a stop at every timer that ends on the
way.
-/

namespace ConsensusCore

/-- Who makes a call: a name, and the number of the call, which no other one has. -/
structure Caller where
  name : String
  number : Nat
deriving DecidableEq, Repr

/-- What a poll that did not just have to wait comes to. -/
structure Polled (σ κ ε : Type) where
  state : σ
  /-- The call, if it waits again. -/
  rest : Option κ
  events : List ε

/-- A primitive with states `σ`, on which callers do the actions `α`, answered at
    once by `ρ`, and make the calls `κ`, which may wait; `ε` is what happens. -/
class Primitive (σ : Type) (α ρ κ ε : outParam Type) where
  act : Nat → α → σ → ρ × σ
  /-- Polls the call of a caller; `none` if it has to wait. -/
  poll : Nat → Caller → κ → σ → Option (Polled σ κ ε)
  /-- Withdraws the call of a caller. -/
  withdraw : Caller → κ → σ → σ
  /-- When a timer of the call ends. -/
  due : κ → Option Nat
  /-- A step of the work that goes on besides the calls; `none` if it has to wait. -/
  work : Nat → σ → Option (σ × List ε)
  /-- When a timer of that work ends. -/
  workDue : σ → Option Nat
  /-- A bound on the number of steps of that work at one moment. -/
  workload : σ → Nat

/-- A primitive, its callers and the clock. -/
structure Simulation (σ κ ε : Type) where
  /-- The time in milliseconds. -/
  now : Nat
  state : σ
  /-- The calls that wait, in the order in which they were made. -/
  calls : List (Caller × κ)
  /-- The number of the next call. -/
  nextCall : Nat
  /-- What has happened, and when. -/
  log : List (Nat × ε)

/-- A step of those who share a primitive. -/
inductive Move (α κ : Type) where
  | act (action : α)
  | call (name : String) (call : κ)
  /-- Withdraws the first call that waits under a name. -/
  | withdraw (name : String)

/-- The answer to a step. -/
inductive Response (ρ : Type) where
  | answer (answer : ρ)
  /-- Whether the call was finished at once. -/
  | called (finished : Bool)
  /-- Whether there was a call to withdraw. -/
  | withdrawn (found : Bool)

namespace Simulation

variable {σ α ρ κ ε : Type}

/-- The start of a simulation. -/
def start (state : σ) : Simulation σ κ ε := ⟨0, state, [], 0, []⟩

/-- The time on the clock. -/
def moment (s : Simulation σ κ ε) : Nat := Moment.ofMillis s.now

/-- Whether a caller waits. -/
def waits (s : Simulation σ κ ε) (caller : Caller) : Bool := s.calls.any (·.1 == caller)

/-- The simulation after `events` have happened. -/
def record (s : Simulation σ κ ε) (events : List ε) : Simulation σ κ ε :=
  { s with log := s.log ++ events.map (s.now, ·) }

variable [Primitive σ α ρ κ ε]

/-- Carries out an action. -/
def act (s : Simulation σ κ ε) (a : α) : ρ × Simulation σ κ ε :=
  let (answer, state) := Primitive.act s.moment a s.state
  (answer, { s with state })

/-- Polls the call of a caller; `none` if it has to wait. -/
def poll (s : Simulation σ κ ε) (caller : Caller) : Option (Simulation σ κ ε) := do
  let call ← s.calls.lookup caller
  let p ← Primitive.poll s.moment caller call s.state
  let calls := s.calls.filterMap fun c => if c.1 == caller then p.rest.map (caller, ·) else some c
  return { s with state := p.state, calls }.record p.events

/-- Makes a call, polls it, and tells whether it is finished. -/
def call (s : Simulation σ κ ε) (name : String) (c : κ) : Bool × Simulation σ κ ε :=
  let caller : Caller := ⟨name, s.nextCall⟩
  let s := { s with calls := s.calls ++ [(caller, c)], nextCall := s.nextCall + 1 }
  let s := (s.poll caller).getD s
  (!s.waits caller, s)

/-- Withdraws the first call that waits under a name; `none` if there is none. -/
def withdraw? (s : Simulation σ κ ε) (name : String) : Option (Simulation σ κ ε) :=
  (s.calls.find? (·.1.name == name)).map fun (caller, c) =>
    { s with
      state := Primitive.withdraw caller c s.state
      calls := s.calls.filter fun c => !(c.1 == caller) }

/-- Does a step of the work besides the calls; `none` if it has to wait. -/
def work (s : Simulation σ κ ε) : Option (Simulation σ κ ε) := do
  let (state, events) ← Primitive.work s.moment s.state
  return { s with state }.record events

/-- Polls every call once, and tells whether any did not have to wait. -/
def pollAll (s : Simulation σ κ ε) : Bool × Simulation σ κ ε :=
  s.calls.foldl (fun (moved, s) c => ((s.poll c.1).elim (moved, s) (true, ·))) (false, s)

/-- Polls and works until all has to wait, or for `n` rounds. -/
def settleWithin : Nat → Simulation σ κ ε → Simulation σ κ ε
  | 0, s => s
  | n + 1, s =>
    -- callers first, in the order of their calls, and then one step of the work
    let (moved, s) := s.pollAll
    match s.work with
    | some s => settleWithin n s
    | none => if moved then settleWithin n s else s

/-- Does all that can be done at this moment. -/
def settle (s : Simulation σ κ ε) : Simulation σ κ ε :=
  settleWithin (4 * s.calls.length + Primitive.workload s.state + 1) s

/-- The millisecond of the next timer that ends after `now`. -/
def nextTimer (s : Simulation σ κ ε) (now : Nat) : Option Nat :=
  let timers := Primitive.workDue s.state :: s.calls.map fun c => Primitive.due σ c.2
  ((timers.filterMap id).map Moment.ceilMillis |>.filter (now < ·)).min?

/-- Moves the clock from `now` to `target`, with a stop at every timer. -/
def advanceTo (target now : Nat) (s : Simulation σ κ ε) : Simulation σ κ ε :=
  match s.nextTimer now with
  | some stop =>
    if now < stop ∧ stop ≤ target then advanceTo target stop { s with now := stop }.settle
    else { s with now := target }.settle
  | none => { s with now := target }.settle
termination_by target - now

/-- Lets time pass. -/
def advance (s : Simulation σ κ ε) (ms : Nat) : Simulation σ κ ε :=
  s.advanceTo (s.now + ms) s.now

/-- Carries out a step. -/
def move (s : Simulation σ κ ε) : Move α κ → Response ρ × Simulation σ κ ε
  | .act a =>
    let (answer, s) := s.act a
    (.answer answer, s)
  | .call name c =>
    let (finished, s) := s.call name c
    (.called finished, s)
  | .withdraw name =>
    match s.withdraw? name with
    | some s => (.withdrawn true, s)
    | none => (.withdrawn false, s)

end Simulation

end ConsensusCore
