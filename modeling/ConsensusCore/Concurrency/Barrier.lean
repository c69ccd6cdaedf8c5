import ConsensusCore.Concurrency.Error
import ConsensusCore.Concurrency.Simulation
import ConsensusCore.Saturating

/-!
# Barriers

A barrier is a count that is raised and lowered, and opens whenever it is back at
zero. A caller who waits for that is let through even if the count has been raised
again by the time the caller looks: the barrier remembers how often it has opened.
-/

namespace ConsensusCore

/-- A barrier. -/
structure Barrier where
  count : Nat
  /-- How often the count has come back to zero. -/
  openings : Nat
deriving DecidableEq, Repr

/-- A wait at a barrier. -/
inductive Barrier.Wait where
  /-- The caller has not looked at the barrier. -/
  | fresh
  /-- The count was not zero when the caller came, after so many openings. -/
  | since (openings : Nat)
deriving DecidableEq, Repr

namespace Barrier

/-- The barrier with the count zero. -/
def new : Barrier := ⟨0, 0⟩

/-- Raises the count. -/
def increase (b : Barrier) (n : Nat) : Barrier := { b with count := Saturating.add b.count n }

/-- Lowers the count, which must not be less than `n`. -/
def decrease (b : Barrier) (n : Nat) : Except PrimitiveError Barrier :=
  if b.count < n then .error (.invalidDecrease b.count n)
  else .ok ⟨b.count - n, if b.count = n ∧ 0 < n then b.openings + 1 else b.openings⟩

/-- Looks at the barrier; `none` if the wait is over. -/
def Wait.poll (b : Barrier) : Wait → Option Wait
  | .fresh => if b.count = 0 then none else some (.since b.openings)
  | .since openings =>
    if b.count = 0 ∨ b.openings ≠ openings then none else some (.since openings)

/-- What is done to a barrier. -/
inductive Action where
  | increase (n : Nat)
  | decrease (n : Nat)

/-- What happens at a barrier. -/
inductive Event where
  /-- A caller is let through. -/
  | passed (caller : Caller)
deriving DecidableEq

/-- Carries out an action. -/
def act (b : Barrier) : Action → Except PrimitiveError Unit × Barrier
  | .increase n => (.ok (), b.increase n)
  | .decrease n =>
    match b.decrease n with
    | .ok b => (.ok (), b)
    | .error e => (.error e, b)

/-- Polls the wait of a caller. -/
def poll (b : Barrier) (caller : Caller) (w : Wait) : Option (Polled Barrier Wait Event) :=
  match w.poll b with
  | none => some ⟨b, none, [.passed caller]⟩
  | some rest => if w = rest then none else some ⟨b, some rest, []⟩

instance : Primitive Barrier Action (Except PrimitiveError Unit) Wait Event where
  act _ a b := b.act a
  poll _ caller w b := b.poll caller w
  withdraw _ _ b := b
  due _ := none
  work _ _ := none
  workDue _ := none
  workload _ := 0

end Barrier

end ConsensusCore
