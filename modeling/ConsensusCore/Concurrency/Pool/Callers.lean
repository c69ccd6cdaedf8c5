import ConsensusCore.Concurrency.Error
import ConsensusCore.Concurrency.Pool.Basic
import ConsensusCore.Concurrency.Simulation

/-!
# Callers of a pool

A caller asks for a handler, any will do, and waits for one no longer than a limit.
Of several idle handlers one is picked at random; here the number that was drawn
is part of the call.
-/

namespace ConsensusCore.Pool

/-- How far a call is. -/
inductive Stage where
  /-- About to pick an idle handler by a number that was drawn. -/
  | fresh (drawn : Nat)
  /-- In line, until the limit is over. -/
  | queued (ticket : Nat) (deadline : Nat)
deriving DecidableEq

/-- A request for a handler. -/
structure Call where
  limit : Duration
  stage : Stage
deriving DecidableEq

/-- What happens to a caller. -/
inductive Event (η : Type) where
  | got (caller : Caller) (handler : η)
  | failed (caller : Caller) (error : PrimitiveError)
deriving DecidableEq

/-- What is done to a pool. -/
inductive Action (η : Type) where
  | add (handler : η)
  | put (handler : η)
  | remove (handler : η)
  /-- Takes all idle handlers. -/
  | drain
  /-- Takes an idle handler, and puts it back twice. -/
  | borrow

/-- The answer to an action. -/
inductive Answer (η : Type) where
  | added
  /-- Whether the pool had the handler. -/
  | found (b : Bool)
  | handlers (hs : List η)
  /-- The numbers of idle and busy handlers after the taking, and whether each of
      the two returns was accepted. -/
  | borrowed (idle busy : Nat) (first second : Bool)
  /-- There was no idle handler. -/
  | nothing

variable {η : Type} [DecidableEq η]

/-- Looks whether a caller in line has been given a handler, or is out of time;
    `none` if neither. -/
def inLine (now : Nat) (p : Pool η) (caller : Caller) (limit : Duration) (t : Nat)
    (deadline : Nat) : Option (Polled (Pool η) Call (Event η)) :=
  match p.receive t with
  | some (h, p) => some ⟨p, none, [.got caller h]⟩
  | none =>
    if deadline ≤ now then some ⟨p.withdraw t, none, [.failed caller (.handlerTimeout limit)]⟩
    else none

/-- Polls the call of a caller. -/
def poll (now : Nat) (p : Pool η) (caller : Caller) (c : Call) :
    Option (Polled (Pool η) Call (Event η)) :=
  match c.stage with
  | .fresh drawn =>
    match p.idle[drawn % p.idle.length]? with
    | some h => some ⟨p.take h, none, [.got caller h]⟩
    | none =>
      let (t, p) := p.join
      let deadline := Moment.after now c.limit
      some ((p.inLine now caller c.limit t deadline).getD
        ⟨p, some { c with stage := .queued t deadline }, []⟩)
  | .queued t deadline => p.inLine now caller c.limit t deadline

/-- Withdraws a call. -/
def drop (p : Pool η) (c : Call) : Pool η :=
  match c.stage with
  | .fresh _ => p
  | .queued t _ => p.withdraw t

/-- Puts a handler back, and tells whether that was accepted. -/
def put (p : Pool η) (h : η) : Bool × Pool η :=
  match p.put? h with
  | some p => (true, p)
  | none => (false, p)

/-- Carries out an action. -/
def act (p : Pool η) : Action η → Answer η × Pool η
  | .add h => (.added, p.add h)
  | .put h =>
    let (ok, p) := p.put h
    (.found ok, p)
  | .remove h =>
    match p.remove? h with
    | some p => (.found true, p)
    | none => (.found false, p)
  | .drain => (.handlers p.idle, p.takeAll)
  | .borrow =>
    match p.idle with
    | [] => (.nothing, p)
    | h :: _ =>
      let p := p.take h
      let (first, q) := p.put h
      let (second, q) := q.put h
      (.borrowed p.idle.length p.busy.length first second, q)

instance : Primitive (Pool η) (Action η) (Answer η) Call (Event η) where
  act _ a p := p.act a
  poll now caller c p := p.poll now caller c
  withdraw _ c p := p.drop c
  due c := match c.stage with
    | .fresh _ => none
    | .queued _ deadline => some deadline
  work _ _ := none
  workDue _ := none
  workload _ := 0

end ConsensusCore.Pool
