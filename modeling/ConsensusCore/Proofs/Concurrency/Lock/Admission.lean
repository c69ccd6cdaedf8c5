import ConsensusCore.Proofs.Concurrency.Lock.Sharing

/-!
# Who is admitted, and when

Whenever no write has been admitted, the lock admits the first write in line, or else all reads
that wait. This happens when a request joins its line and when a write is given up, but not when
a read is: so a read that leaves must not leave anyone waiting without cause.

* `admits_in_order`: nobody waits without cause, no read overtakes a write that was requested
  before it, writes are admitted as they were requested, and reads that have waited for the last
  write are admitted together.
-/

namespace ConsensusCore

namespace Lock

variable {l l' : Lock} {t : Nat}

/-- If nobody writes or waits to, all reads that wait are admitted. -/
theorem schedule_of_nobody (hw : l.writing = false) (hwaiting : l.writes.waiting = []) :
    l.schedule = l.admitReads := by
  have hserve : l.writes.serve () = none := by rw [WaitingLine.serve, hwaiting]
  simp only [schedule, hw, hserve, Bool.false_eq_true, if_false]

/-- What becomes of the reads when the last write is given up: those that have waited are
    admitted behind those that have been before. -/
theorem reads_releaseWrite (hwaiting : l.writes.waiting = []) :
    l.releaseWrite.reads.waiting = [] ∧
      l.releaseWrite.granted .read = l.granted .read ++ l.reads.waiting := by
  have heq : l.releaseWrite = admitReads { l with writing := false } :=
    schedule_of_nobody rfl hwaiting
  rw [heq]
  refine ⟨rfl, ?_⟩
  simp only [granted, line, admitReads, WaitingLine.serveAll, List.map_append, List.map_map,
    Function.comp_def, List.map_id']

/-- Withdrawing a write that was granted gives it up. -/
theorem withdraw_granted {requests guards : List (Nat × Access)} {admitted : List Nat}
    (h : l.Serves requests guards admitted) (ht : t ∈ l.granted .write)
    (hwaiting : l.writes.waiting = []) :
    ∃ writes : WaitingLine Unit, writes.waiting = [] ∧
      l.withdraw t .write = releaseWrite { l with writes } := by
  obtain ⟨room, hk⟩ := h.keeps
  have hleave : l.leave t .write = none := by
    simp only [leave, WaitingLine.leave, hwaiting, List.not_mem_nil, if_false, Option.map_none]
  -- it is not in line any more, so that what was granted is taken and given up
  obtain ⟨l', hreceive⟩ := receive_of_leave (a := .write) (List.mem_append_right _ ht) hleave
  simp only [withdraw, hleave, hreceive]
  obtain ⟨⟨_, writes⟩, hline, rfl⟩ := Option.map_eq_some_iff.1 hreceive
  exact ⟨writes, (hk.writes.receive hline).1.trans hwaiting, rfl⟩

end Lock

namespace Sharing

open Lock

variable {x : Sharing} {max : Nat}

/-- Whatever callers do, in whatever order: somebody waits only if a write has been admitted. A
    request has a later ticket than those before it, and while a read has been admitted, all
    writes that were requested before it are over. The writes are admitted in the order of their
    tickets, and those that wait come after all that have been admitted. When a write that was
    granted is released, or withdrawn, and no other waits, then all reads that wait are admitted
    at once. No more reads wait than may. -/
theorem admits_in_order (hx : Reach (start max) x) :
    (x.lock.writing = false → x.lock.reads.waiting = [] ∧ x.lock.writes.waiting = []) ∧
      (∀ {a t lock}, x.lock.request a = .ok (t, lock) → ∀ e ∈ x.requests ++ x.guards, e.1 < t) ∧
      (∀ t ∈ x.lock.granted .read ++ ticketsOf x.guards .read,
        ∀ t' ∈ ticketsOf (x.requests ++ x.guards) .write, t < t') ∧
      (x.admitted ++ x.lock.writes.waiting).Pairwise (· < ·) ∧
      (∀ t ∈ x.lock.granted .write ++ ticketsOf x.guards .write, t ∈ x.admitted) ∧
      (x.lock.writes.waiting = [] → ∀ lock,
        (∃ t, (t, .write) ∈ x.guards ∧ lock = x.lock.release .write) ∨
          (∃ t, (t, .write) ∈ x.pending ∧ t ∈ x.lock.granted .write ∧
            lock = x.lock.withdraw t .write) →
        lock.reads.waiting = [] ∧
          lock.granted .read = x.lock.granted .read ++ x.lock.reads.waiting) ∧
      x.lock.reads.waiting.length ≤ max := by
  obtain ⟨h, hmax⟩ := hx.serves
  refine ⟨h.idle, fun hr e he => ?_, fun t ht t' ht' => ?_, h.ranks.order, h.ranks.recorded,
    fun hwaiting lock hlock => ?_, hmax ▸ h.bounded⟩
  · obtain ⟨rfl, -⟩ := request_cases hr
    exact h.ranks.drawn e he
  · rw [ticketsOf_append] at ht'
    exact h.ranks.ahead t ht t' (((h.ranks.tickets .write).append_right _).mem_iff.2 ht')
  · obtain ⟨t, -, rfl⟩ | ⟨t, -, ht, rfl⟩ := hlock
    · exact reads_releaseWrite hwaiting
    · obtain ⟨writes, hnone, heq⟩ := withdraw_granted h ht hwaiting
      rw [heq]
      exact reads_releaseWrite hnone

/-- Two reads that wait while a write holds the lock. Between them another write was requested,
    which has been withdrawn. -/
def waitingReads : Sharing where
  lock := { Lock.new 2 with
    reads := ⟨[1, 3], []⟩
    writing := true
    nextTicket := 4 }
  pending := [(1, .read), (3, .read)]
  lapsed := []
  guards := [(0, .write)]
  admitted := [0]

theorem reach_waitingReads : Reach (start 2) waitingReads := by
  refine .head (.request (a := .write) (t := 0) (by decide) rfl) ?_
  refine .head (.request (a := .read) (t := 1) (by decide) rfl) ?_
  refine .head (.request (a := .write) (t := 2) (by decide) rfl) ?_
  refine .head (.request (a := .read) (t := 3) (by decide) rfl) ?_
  refine .head (.refuse (a := .read) rfl) ?_
  refine .head (.withdraw (t := 2) (a := .write) (by decide)) ?_
  exact .single (.enter (t := 0) (a := .write) (by decide) rfl)

theorem admits_in_order_waitingReads :
    waitingReads.lock.reads.waiting = [1, 3] ∧
      (waitingReads.lock.release .write).reads.waiting = [] ∧
      (waitingReads.lock.release .write).granted .read = [1, 3] := by
  obtain ⟨-, -, -, -, -, hrelease, -⟩ := admits_in_order reach_waitingReads
  obtain ⟨hwaiting, hgranted⟩ := hrelease rfl _ (.inl ⟨0, by decide, rfl⟩)
  exact ⟨rfl, hwaiting, hgranted⟩

end Sharing

end ConsensusCore
