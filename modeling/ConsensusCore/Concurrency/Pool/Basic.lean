import ConsensusCore.Concurrency.WaitingLine

/-!
# Pools of handlers

Handlers that are lent to callers, each to one at a time. A handler of the pool is
idle or busy; who finds none idle joins a line. A handler that becomes available
goes to the one who has waited longest, and stays busy on the way there
(`Pool.offer`).
-/

namespace ConsensusCore

/-- A pool of handlers `η`. -/
structure Pool (η : Type) where
  idle : List η
  busy : List η
  line : WaitingLine η
  /-- The next ticket to be drawn; fewer than 2^64 ever are (see `WaitingLine`). -/
  nextTicket : Nat

namespace Pool

variable {η : Type}

/-- The pool without handlers. -/
def empty : Pool η := ⟨[], [], .empty, 0⟩

/-- Joins the line. -/
def join (p : Pool η) : Nat × Pool η :=
  (p.nextTicket, { p with line := p.line.join p.nextTicket, nextTicket := p.nextTicket + 1 })

/-- Takes what was given to the holder of a ticket; `none` if nothing was. -/
def receive (p : Pool η) (t : Nat) : Option (η × Pool η) :=
  (p.line.receive t).map fun (h, line) => (h, { p with line })

variable [DecidableEq η]

/-- Gives a handler to the first in the line, or keeps it as idle. -/
def offer (p : Pool η) (h : η) : Pool η :=
  match p.line.serve h with
  | some line => { p with line, busy := p.busy.insert h }
  | none => { p with idle := p.idle ++ [h] }

/-- Adds a handler, unless the pool has it. -/
def add (p : Pool η) (h : η) : Pool η :=
  if h ∈ p.busy ∨ h ∈ p.idle then p else p.offer h

/-- Takes an idle handler. -/
def take (p : Pool η) (h : η) : Pool η :=
  { p with idle := p.idle.erase h, busy := p.busy.insert h }

/-- Takes a busy handler back; `none` if it is not busy. -/
def put? (p : Pool η) (h : η) : Option (Pool η) :=
  if h ∈ p.busy then some ({ p with busy := p.busy.erase h }.offer h) else none

/-- Takes a handler out of the pool; `none` if the pool does not have it. -/
def remove? (p : Pool η) (h : η) : Option (Pool η) :=
  if h ∈ p.busy then some { p with busy := p.busy.erase h }
  else if h ∈ p.idle then some { p with idle := p.idle.erase h }
  else none

/-- Withdraws from the line; what was given and not taken yet goes back, if the
    pool still has it. -/
def withdraw (p : Pool η) (t : Nat) : Pool η :=
  match p.line.leave t with
  | some line => { p with line }
  | none =>
    match p.receive t with
    | some (h, p) => (p.put? h).getD p
    | none => p

/-- Takes all idle handlers. -/
def takeAll (p : Pool η) : Pool η := p.idle.foldl take p

end Pool

end ConsensusCore
