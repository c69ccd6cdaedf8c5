import ConsensusCore.Concurrency.Barrier
import ConsensusCore.Concurrency.WaitingLine

/-!
# Read-write locks

A lock that many may hold to read, or one to write. Who wants it draws a ticket
and joins the line of reads or that of writes. Whenever no write has been
admitted, the first write in the line is, and only if none waits all the reads
there are, at once (`Lock.schedule`): a stream of reads cannot keep a write
waiting. A write that has been admitted still waits for the reads admitted before
it, at the barrier that counts them.

Who has been admitted and has not noticed can still withdraw, and then gives up
what was admitted.
-/

namespace ConsensusCore

/-- What a lock is held for. -/
inductive Access where
  | read
  | write
deriving DecidableEq, Repr

/-- A lock. -/
structure Lock where
  /-- How many reads may wait. -/
  maxWaitingReads : Nat
  reads : WaitingLine Unit
  writes : WaitingLine Unit
  /-- Whether a write has been admitted and not released. -/
  writing : Bool
  /-- Counts the reads that have been admitted and not released. -/
  readers : Barrier
  /-- The next ticket to be drawn; fewer than 2^64 ever are (see `WaitingLine`). -/
  nextTicket : Nat

namespace Lock

/-- A lock that nobody holds. -/
def new (maxWaitingReads : Nat) : Lock := ⟨maxWaitingReads, .empty, .empty, false, .new, 0⟩

/-- Admits all reads that wait. -/
def admitReads (l : Lock) : Lock :=
  { l with
    reads := l.reads.serveAll ()
    readers := l.readers.increase l.reads.waiting.length }

/-- Admits those whose turn it is. -/
def schedule (l : Lock) : Lock :=
  if l.writing then l
  else
    match l.writes.serve () with
    | some writes => { l with writes, writing := true }
    | none => l.admitReads

/-- Joins the line of reads, if there is room. -/
def requestRead (l : Lock) : Except PrimitiveError (Nat × Lock) :=
  if l.maxWaitingReads ≤ l.reads.waiting.length then .error (.readQueueFull l.maxWaitingReads)
  else .ok (l.nextTicket,
    { l with reads := l.reads.join l.nextTicket, nextTicket := l.nextTicket + 1 }.schedule)

/-- Joins the line of writes. -/
def requestWrite (l : Lock) : Nat × Lock :=
  (l.nextTicket,
    { l with writes := l.writes.join l.nextTicket, nextTicket := l.nextTicket + 1 }.schedule)

/-- Joins the line for an access. -/
def request (l : Lock) : Access → Except PrimitiveError (Nat × Lock)
  | .read => l.requestRead
  | .write => .ok l.requestWrite

/-- Notices that the holder of a ticket has been admitted; `none` if that is not so. -/
def receive (l : Lock) (t : Nat) : Access → Option Lock
  | .read => (l.reads.receive t).map fun (_, reads) => { l with reads }
  | .write => (l.writes.receive t).map fun (_, writes) => { l with writes }

/-- Gives up a read that was admitted. -/
def releaseRead (l : Lock) : Lock :=
  match l.readers.decrease 1 with
  | .ok readers => { l with readers }
  | .error _ => l

/-- Gives up a write that was admitted. -/
def releaseWrite (l : Lock) : Lock := { l with writing := false }.schedule

/-- Gives up an access that was admitted. -/
def release (l : Lock) : Access → Lock
  | .read => l.releaseRead
  | .write => l.releaseWrite

/-- Leaves the line for an access; `none` if the ticket is not in it. -/
def leave (l : Lock) (t : Nat) : Access → Option Lock
  | .read => (l.reads.leave t).map fun reads => { l with reads }
  | .write => (l.writes.leave t).map fun writes => { l with writes }

/-- Withdraws a request: from the line, or by giving up what was admitted and not
    noticed yet. -/
def withdraw (l : Lock) (t : Nat) (a : Access) : Lock :=
  match l.leave t a with
  | some l => l
  | none =>
    match l.receive t a with
    | some l => l.release a
    | none => l

/-- The lock in words. -/
def toText (l : Lock) : String :=
  s!"RwLock \x7b pending_reads: {l.reads.waiting.length}, " ++
    s!"pending_writes: {l.writes.waiting.length}, writing: {l.writing}, " ++
    s!"active_reads: {l.readers.count} \x7d"

end Lock

end ConsensusCore
