import ConsensusCore.Proofs.Concurrency.Lock.Sharing

/-!
# The slots of a lock

What is admitted is a slot that someone has until it is given up: from the grant to the request
that has not noticed, from there to a guard, and back when the guard is released or the request
withdrawn. A request can end at any point on this way, and the slot must not be lost.

* `slots_balance`: the count of reads and the flag of writes tell what has been admitted and
  not given up, and once nobody wants or has the lock, it is as it was at first.
-/

namespace ConsensusCore.Sharing

open Lock

variable {x : Sharing} {max : Nat}

/-- Whatever callers do, in whatever order, the lock holds exactly what they have asked for and
    not got, given up or been refused: the requests in its lines are those there are, each with
    a ticket of its own, and a request that is withdrawn leaves none of its lines with its
    ticket. Its count is that of the reads held, and granted and not noticed; its flag tells
    whether there is a write that is held, or granted and not noticed, of which there is at most
    one. Every such read can be taken off the count. Once nobody wants or has the lock, it is as
    it was at first, but for the next ticket and for how often its reads have been over. -/
theorem slots_balance (hx : Reach (start max) x) :
    (∀ a, (x.lock.line a).tickets.Perm (ticketsOf x.requests a)) ∧
      ((x.requests ++ x.guards).map (·.1)).Nodup ∧
      (∀ t a, (t, a) ∈ x.requests → ∀ b, t ∉ ((x.lock.withdraw t a).line b).tickets) ∧
      x.lock.readers.count = (ticketsOf x.guards .read).length + (x.lock.granted .read).length ∧
      x.lock.writing.toNat = (ticketsOf x.guards .write).length + (x.lock.granted .write).length ∧
      (∀ t ∈ ticketsOf x.guards .read ++ x.lock.granted .read,
        ∃ readers, x.lock.readers.decrease 1 = .ok readers ∧
          readers.count + 1 = x.lock.readers.count) ∧
      (x.requests = [] → x.guards = [] →
        x.lock = { Lock.new max with
          nextTicket := x.lock.nextTicket
          readers := ⟨0, x.lock.readers.openings⟩ }) := by
  obtain ⟨h, hmax⟩ := hx.serves
  obtain ⟨room, hk⟩ := h.keeps
  have hreaders := hk.readers
  have hwriters := hk.writers
  rw [List.length_replicate] at hwriters
  have hcount : x.lock.readers.count =
      (ticketsOf x.guards .read).length + (x.lock.granted .read).length := by
    rw [hreaders, granted, List.length_map, Nat.add_comm]
    rfl
  refine ⟨h.ranks.tickets, h.ranks.distinct, fun t a hmem b ht => ?_, hcount, ?_, fun t ht => ?_,
    fun hrequests hguards => ?_⟩
  · -- the ticket would be that of another request
    have hp := List.perm_cons_erase hmem
    have hb := mem_ticketsOf.1 (((h.withdraw hp).ranks.tickets b).mem_iff.1 ht)
    have hdistinct := (((hp.append_right x.guards).map (·.1)).nodup_iff.1 h.ranks.distinct)
    exact (List.nodup_cons.1 hdistinct).1 (List.mem_map.2 ⟨_, List.mem_append_left _ hb, rfl⟩)
  · rw [← hwriters, granted, List.length_map, Nat.add_zero, Nat.add_comm]
    rfl
  · have hpos : 0 < x.lock.readers.count := by
      rw [hcount, ← List.length_append]
      exact List.length_pos_of_mem ht
    obtain ⟨readers, hdecrease, hone, -⟩ := Barrier.decrease_one hpos
    exact ⟨readers, hdecrease, hone⟩
  · rw [hrequests, hguards] at h
    exact hmax ▸ h.eq_new

/-- A read that has been found out of time, and to which the lock is granted before it has left
    the line: a write has just been released. -/
def lateGrant : Sharing where
  lock := { Lock.new 1 with
    reads := ⟨[], [(1, ())]⟩
    readers := ⟨1, 0⟩
    nextTicket := 2 }
  pending := []
  lapsed := [1]
  guards := []
  admitted := [0]

theorem reach_lateGrant : Reach (start 1) lateGrant := by
  refine .head (.request (a := .write) (t := 0) (by decide) rfl) ?_
  refine .head (.enter (t := 0) (a := .write) (by decide) rfl) ?_
  refine .head (.request (a := .read) (t := 1) (by decide) rfl) ?_
  refine .head (.refuse (a := .read) rfl) ?_
  refine .head (.expire (t := 1) (by decide) (by decide)) ?_
  exact .single (.release (t := 0) (a := .write) (by decide))

theorem slots_balance_lateGrant :
    lateGrant.lock.readers.count = 1 ∧ ticketsOf lateGrant.guards .read = [] ∧
      lateGrant.lapsed = [1] ∧ lateGrant.lock.granted .read = [1] ∧
      (∃ readers, lateGrant.lock.readers.decrease 1 = .ok readers ∧ readers.count + 1 = 1) ∧
      ∀ b, 1 ∉ ((lateGrant.lock.withdraw 1 .read).line b).tickets := by
  obtain ⟨-, -, hgone, -, -, hdecrease, -⟩ := slots_balance reach_lateGrant
  exact ⟨rfl, rfl, rfl, rfl, hdecrease 1 (by decide), hgone 1 .read (by decide)⟩

end ConsensusCore.Sharing
