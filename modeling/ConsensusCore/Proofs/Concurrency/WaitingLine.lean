import ConsensusCore.Concurrency.WaitingLine
import ConsensusCore.Proofs.Keys

/-!
# Tickets of a waiting line

A ticket is in a line at most once, whether its holder waits or has been served, and it was
drawn before (`WaitingLine.Issued`). So what one holder takes is taken from no other
(`Issued.receive`).
-/

namespace ConsensusCore

namespace WaitingLine

variable {β : Type} {l l' : WaitingLine β} {b : β} {t next next' : Nat}

/-- The tickets in a line: of those who wait, and of those who have been served. -/
def tickets (l : WaitingLine β) : List Nat := l.waiting ++ l.granted.map (·.1)

/-- No ticket is in the line twice, and all were drawn before `next`. -/
structure Issued (l : WaitingLine β) (next : Nat) : Prop where
  nodup : l.tickets.Nodup
  lt : ∀ t ∈ l.tickets, t < next

theorem issued_empty (next : Nat) : (empty : WaitingLine β).Issued next :=
  ⟨List.nodup_nil, fun _ ht => absurd ht List.not_mem_nil⟩

/-- Being served takes nobody's ticket away. -/
theorem perm_serve (h : l.serve b = some l') : l'.tickets.Perm l.tickets := by
  obtain ⟨t, hw, hg⟩ := waiting_serve h
  simp only [tickets, hw, hg, List.map_append, List.map_singleton, ← List.append_assoc]
  exact List.perm_append_comm

theorem perm_serveAll (l : WaitingLine β) (b : β) : (l.serveAll b).tickets.Perm l.tickets := by
  simp only [tickets, serveAll, List.nil_append, List.map_append, List.map_map,
    Function.comp_def, List.map_id']
  exact List.perm_append_comm

theorem perm_join (l : WaitingLine β) (t : Nat) : (l.join t).tickets.Perm (t :: l.tickets) := by
  simp only [tickets, join, List.append_assoc, List.singleton_append]
  exact List.perm_middle

theorem serve_eq_none (h : l.serve b = none) : l.waiting = [] := by
  simp only [serve] at h
  split at h
  next hwaiting => exact hwaiting
  next => cases h

namespace Issued

theorem mono (hl : l.Issued next) (hle : next ≤ next') : l.Issued next' :=
  ⟨hl.nodup, fun t ht => Nat.lt_of_lt_of_le (hl.lt t ht) hle⟩

theorem perm (hl : l.Issued next) (hp : l'.tickets.Perm l.tickets) : l'.Issued next :=
  ⟨hp.nodup_iff.2 hl.nodup, fun t ht => hl.lt t (hp.mem_iff.1 ht)⟩

theorem join (hl : l.Issued next) : (l.join next).Issued (next + 1) := by
  have hnew : next ∉ l.tickets := fun hmem => Nat.lt_irrefl _ (hl.lt next hmem)
  have hp := perm_join l next
  refine ⟨hp.nodup_iff.2 (List.nodup_cons.2 ⟨hnew, hl.nodup⟩), fun t ht => ?_⟩
  rcases List.mem_cons.1 (hp.mem_iff.1 ht) with rfl | ht
  · exact Nat.lt_succ_self _
  · exact Nat.lt_succ_of_lt (hl.lt t ht)

theorem serve (hl : l.Issued next) (h : l.serve b = some l') : l'.Issued next :=
  hl.perm (perm_serve h)

theorem serveAll (hl : l.Issued next) (b : β) : (l.serveAll b).Issued next :=
  hl.perm (perm_serveAll l b)

theorem without (hl : l.Issued next) (hp : l.tickets.Perm (t :: l'.tickets)) : l'.Issued next :=
  ⟨(List.nodup_cons.1 (hp.nodup_iff.1 hl.nodup)).2,
    fun t' ht' => hl.lt t' (hp.mem_iff.2 (List.mem_cons_of_mem _ ht'))⟩

/-- What is taken goes, and all else stays. -/
theorem perm_receive (hl : l.Issued next) (h : l.receive t = some (b, l')) :
    l'.waiting = l.waiting ∧ l.granted.Perm ((t, b) :: l'.granted) := by
  obtain ⟨b', hlookup, heq⟩ := Option.map_eq_some_iff.1 h
  cases heq
  obtain ⟨before, after, hg, hkeep⟩ :=
    filter_of_lookup (List.nodup_append.1 hl.nodup).2.1 hlookup
  refine ⟨rfl, ?_⟩
  dsimp only
  rw [hkeep, hg]
  exact List.perm_middle

theorem tickets_receive (hl : l.Issued next) (h : l.receive t = some (b, l')) :
    l.tickets.Perm (t :: l'.tickets) := by
  obtain ⟨hwaiting, hgranted⟩ := hl.perm_receive h
  simp only [tickets, hwaiting]
  exact ((hgranted.map (·.1)).append_left _).trans List.perm_middle

/-- What is taken was given once, and nothing else is taken. -/
theorem receive (hl : l.Issued next) (h : l.receive t = some (b, l')) :
    l'.waiting = l.waiting ∧ l'.granted.length + 1 = l.granted.length ∧ l'.Issued next := by
  obtain ⟨hwaiting, hgranted⟩ := hl.perm_receive h
  exact ⟨hwaiting, hgranted.length_eq.symm, hl.without (hl.tickets_receive h)⟩

end Issued

theorem perm_leave (h : l.leave t = some l') :
    l.waiting.Perm (t :: l'.waiting) ∧ l'.granted = l.granted := by
  simp only [WaitingLine.leave] at h
  split at h
  next hmem =>
    cases h
    exact ⟨List.perm_cons_erase hmem, rfl⟩
  next => cases h

theorem sublist_leave (h : l.leave t = some l') : l'.waiting.Sublist l.waiting := by
  simp only [WaitingLine.leave] at h
  split at h
  next =>
    cases h
    exact List.erase_sublist
  next => cases h

theorem tickets_leave (h : l.leave t = some l') : l.tickets.Perm (t :: l'.tickets) := by
  obtain ⟨hwaiting, hgranted⟩ := perm_leave h
  simp only [tickets, hgranted]
  exact hwaiting.append_right _

theorem Issued.leave (hl : l.Issued next) (h : l.leave t = some l') :
    l'.waiting.length ≤ l.waiting.length ∧ l'.granted = l.granted ∧ l'.Issued next := by
  obtain ⟨hwaiting, hgranted⟩ := perm_leave h
  refine ⟨?_, hgranted, hl.without (tickets_leave h)⟩
  rw [hwaiting.length_eq]
  exact Nat.le_succ _

/-- Who is in the line and does not wait has been served. -/
theorem receive_of_leave (hmem : t ∈ l.tickets) (h : l.leave t = none) :
    ∃ b l', l.receive t = some (b, l') := by
  have hwaiting : t ∉ l.waiting := by
    intro hw
    simp only [leave, if_pos hw, reduceCtorEq] at h
  obtain ⟨e, he, rfl⟩ := List.mem_map.1 ((List.mem_append.1 hmem).resolve_left hwaiting)
  rcases hlookup : l.granted.lookup e.1 with _ | b
  · exact absurd rfl (bne_iff_ne.1 (List.lookup_eq_none_iff.1 hlookup e he))
  · refine ⟨b, { l with granted := l.granted.filter fun g => !(g.1 == e.1) }, ?_⟩
    rw [receive, hlookup, Option.map_some]

/-- Who has been served does not wait, and can take what was given. -/
theorem Issued.receive_of_mem (hl : l.Issued next) (hmem : (t, b) ∈ l.granted) :
    l.leave t = none ∧ ∃ l', l.receive t = some (b, l') := by
  obtain ⟨-, hgranted, hapart⟩ := List.nodup_append.1 hl.nodup
  have hwaiting : t ∉ l.waiting := fun hw => hapart t hw t (List.mem_map_of_mem hmem) rfl
  refine ⟨if_neg hwaiting, ⟨l.waiting, l.granted.filter fun g => !(g.1 == t)⟩, ?_⟩
  rw [WaitingLine.receive, lookup_of_mem hgranted hmem, Option.map_some]

end WaitingLine

end ConsensusCore
