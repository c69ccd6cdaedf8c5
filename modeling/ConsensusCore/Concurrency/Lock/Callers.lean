import ConsensusCore.Concurrency.Lock.Basic

/-!
# Callers of a lock

A caller asks for a lock and, once it has it, either keeps it under its name until
it is released (`Purpose.hold`), or runs a task under it, which ends when its gate is
opened (`Purpose.run`). A read may be limited in time.

One thing at most is kept under a name (`Held`): a lock that was granted, or the shut
gate of a task, which is put there when the call is made. What is put there later takes
its place, so that the lock is given up, or the gate opened.

A write passes through two waits: for its turn, and for the reads before it. At
either it can be withdrawn.
-/

namespace ConsensusCore

namespace Lock

/-- What a caller asks for. -/
inductive Request where
  /-- A read, which fails if it is not admitted within the limit. -/
  | read (limit : Option Duration)
  | write
deriving DecidableEq

/-- What the caller wants to hold the lock for. -/
def Request.access : Request → Access
  | .read _ => .read
  | .write => .write

/-- What a caller does with the lock. -/
inductive Purpose where
  /-- Keeps it until it is released. -/
  | hold
  /-- Runs a task under it. -/
  | run
deriving DecidableEq

/-- How far a call is. -/
inductive Stage where
  | fresh
  /-- In line, with the moment at which the limit is over. -/
  | queued (ticket : Nat) (deadline : Option Nat)
  /-- Admitted to write, and waiting for the reads before. -/
  | draining (wait : Barrier.Wait)
  /-- Running its task. -/
  | running
deriving DecidableEq

/-- A call of a caller. -/
structure Call where
  request : Request
  purpose : Purpose
  stage : Stage
deriving DecidableEq

/-- What happens to a caller. -/
inductive Event where
  /-- The lock is granted. -/
  | granted (caller : Caller)
  /-- The task starts. -/
  | running (caller : Caller)
  /-- The task ends with a result. -/
  | returned (caller : Caller) (result : Nat)
  | failed (caller : Caller) (error : PrimitiveError)
deriving DecidableEq

/-- What is done to a lock. -/
inductive Action where
  /-- Releases the lock that is kept under a name, or opens the gate. -/
  | release (name : String)
  | describe
  | describeGuard (name : String)

/-- The answer to an action. -/
inductive Answer where
  /-- Whether there was something to release. -/
  | released (found : Bool)
  | text (s : String)
  /-- No lock is kept there. -/
  | nothing

/-- What is kept under a name. -/
inductive Held where
  /-- A lock that was granted. -/
  | guard (access : Access)
  /-- The shut gate of the task of the call with a number. -/
  | gate (call : Nat)
deriving DecidableEq

end Lock

/-- A lock, and what is kept under the names of the callers. -/
structure SharedLock where
  lock : Lock
  held : List (String × Lock.Held)

namespace SharedLock

open Lock

/-- A lock that nobody holds. -/
def new (maxWaitingReads : Nat) : SharedLock := ⟨.new maxWaitingReads, []⟩

/-- The result of every task. -/
def taskResult : Nat := 7

/-- Takes away what is kept under a name; `none` if there is nothing. A lock is given
    up. -/
def take? (s : SharedLock) (name : String) : Option SharedLock :=
  (s.held.lookup name).map fun h =>
    let lock := match h with
      | .guard a => s.lock.release a
      | .gate _ => s.lock
    ⟨lock, s.held.filter fun e => !(e.1 == name)⟩

/-- Keeps something under a name, in place of what was there. -/
def keep (s : SharedLock) (name : String) (h : Held) : SharedLock :=
  let s := (s.take? name).getD s
  { s with held := s.held ++ [(name, h)] }

/-- What is kept for a caller while the gate of its task is shut. -/
def gateOf (caller : Caller) : String × Held := (caller.name, .gate caller.number)

/-- Opens the gate of the task of a caller, if it is still shut. -/
def openGate (s : SharedLock) (caller : Caller) : SharedLock :=
  { s with held := s.held.erase (gateOf caller) }

/-- Does what a caller wants the lock for, once it may. -/
def proceed (s : SharedLock) (caller : Caller) (c : Call) : Polled SharedLock Call Event :=
  match c.purpose with
  | .hold => ⟨s.keep caller.name (.guard c.request.access), none, [.granted caller]⟩
  | .run =>
    if gateOf caller ∈ s.held then ⟨s, some { c with stage := .running }, [.running caller]⟩
    else
      ⟨{ s with lock := s.lock.release c.request.access }, none,
        [.running caller, .returned caller taskResult]⟩

/-- Looks whether the reads before a write are over. -/
def drain (s : SharedLock) (caller : Caller) (c : Call) (w : Barrier.Wait) :
    Polled SharedLock Call Event :=
  match w.poll s.lock.readers with
  | none => s.proceed caller c
  | some w => ⟨s, some { c with stage := .draining w }, []⟩

/-- A call that ends with an error. -/
def fail (s : SharedLock) (caller : Caller) (e : PrimitiveError) : Polled SharedLock Call Event :=
  ⟨s.openGate caller, none, [.failed caller e]⟩

/-- Looks whether a caller in line has been admitted, or is out of time; `none` if
    neither. -/
def inLine (now : Nat) (s : SharedLock) (caller : Caller) (c : Call) (t : Nat)
    (deadline : Option Nat) : Option (Polled SharedLock Call Event) :=
  match s.lock.receive t c.request.access, c.request, deadline with
  | some lock, .read _, _ => some ({ s with lock }.proceed caller c)
  | some lock, .write, _ => some ({ s with lock }.drain caller c .fresh)
  | none, .read (some limit), some deadline =>
    if deadline ≤ now then
      some ({ s with lock := s.lock.withdraw t .read }.fail caller (.readTimeout limit))
    else none
  | none, _, _ => none

/-- Polls the call of a caller. -/
def poll (now : Nat) (s : SharedLock) (caller : Caller) (c : Call) :
    Option (Polled SharedLock Call Event) :=
  match c.stage with
  | .fresh =>
    -- the gate can be opened from now on, even before the task starts
    let s := match c.purpose with
      | .hold => s
      | .run => s.keep caller.name (.gate caller.number)
    match s.lock.request c.request.access with
    | .error e => some (s.fail caller e)
    | .ok (t, lock) =>
      let s := { s with lock }
      let deadline := match c.request with
        | .read limit => limit.map (Moment.after now)
        | .write => none
      some ((s.inLine now caller c t deadline).getD
        ⟨s, some { c with stage := .queued t deadline }, []⟩)
  | .queued t deadline => s.inLine now caller c t deadline
  | .draining w =>
    let p := s.drain caller c w
    if p.rest = some c then none else some p
  | .running =>
    if gateOf caller ∈ s.held then none
    else some ⟨{ s with lock := s.lock.release c.request.access }, none,
      [.returned caller taskResult]⟩

/-- Withdraws the call of a caller, which gives up what it has. -/
def withdraw (s : SharedLock) (caller : Caller) (c : Call) : SharedLock :=
  let lock := match c.stage with
    | .fresh => s.lock
    | .queued t _ => s.lock.withdraw t c.request.access
    | .draining _ => s.lock.release .write
    | .running => s.lock.release c.request.access
  { s with lock }.openGate caller

/-- A lock that was granted, in words. -/
def guardText (s : SharedLock) : Access → String
  | .read => s!"ReadGuard \x7b active_reads: {s.lock.readers.count} \x7d"
  | .write => "WriteGuard \x7b .. \x7d"

/-- Carries out an action. -/
def act (s : SharedLock) : Action → Answer × SharedLock
  | .release name =>
    match s.take? name with
    | some s => (.released true, s)
    | none => (.released false, s)
  | .describe => (.text s.lock.toText, s)
  | .describeGuard name =>
    match s.held.lookup name with
    | some (.guard a) => (.text (s.guardText a), s)
    | _ => (.nothing, s)

instance : Primitive SharedLock Action Answer Call Event where
  act _ a s := s.act a
  poll now caller c s := s.poll now caller c
  withdraw caller c s := s.withdraw caller c
  due c := match c.stage with
    | .queued _ deadline => deadline
    | _ => none
  work _ _ := none
  workDue _ := none
  workload _ := 0

end SharedLock

end ConsensusCore
