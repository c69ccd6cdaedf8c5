import ConsensusCore.Proofs.Concurrency.Lock
import Mathlib.Algebra.Group.Nat.Defs

/-!
# Those who share a lock

Whoever wants a lock asks for it with a request, which is *pending* until it is noticed that it
has been admitted. Then the access is held by a *guard*, which is released in the end; a write
has its guard already while it waits for the reads before. A pending request can be withdrawn
at any moment. A read whose time is over while it is found in line leaves the line a moment
later, and in between it can be admitted after all (`Step.expire`, `Step.leave`).

All of this is done by any number of callers, in any order (`Sharing.Reach`). Requests are told
apart by their tickets, which are drawn in the order in which the requests are made.

* `Step.serves`: what is in the lock belongs to the requests and guards there are, and those
  who are admitted are so in order; each step keeps this;
* `Reach.serves`: so it holds whatever has happened.
-/

namespace ConsensusCore

open Lock

/-! ## Requests and guards -/

/-- The tickets that stand for an access. -/
def ticketsOf (l : List (Nat × Access)) (a : Access) : List Nat :=
  (l.filter (·.2 == a)).map (·.1)

section ticketsOf

variable {l l' : List (Nat × Access)} {a b : Access} {t : Nat}

@[simp] theorem ticketsOf_nil (a : Access) : ticketsOf [] a = [] := rfl

@[simp] theorem ticketsOf_append (l l' : List (Nat × Access)) (a : Access) :
    ticketsOf (l ++ l') a = ticketsOf l a ++ ticketsOf l' a := by
  rw [ticketsOf, List.filter_append, List.map_append]
  rfl

theorem ticketsOf_cons_self (t : Nat) (a : Access) (l : List (Nat × Access)) :
    ticketsOf ((t, a) :: l) a = t :: ticketsOf l a := by
  rw [ticketsOf, List.filter_cons_of_pos (by simp)]
  rfl

theorem ticketsOf_cons_of_ne (t : Nat) (h : b ≠ a) (l : List (Nat × Access)) :
    ticketsOf ((t, b) :: l) a = ticketsOf l a := by
  rw [ticketsOf, List.filter_cons_of_neg (by simpa using h)]
  rfl

theorem ticketsOf_perm (h : l.Perm l') (a : Access) : (ticketsOf l a).Perm (ticketsOf l' a) :=
  (h.filter _).map _

theorem length_ticketsOf_le (l : List (Nat × Access)) (a : Access) :
    (ticketsOf l a).length ≤ l.length := by
  rw [ticketsOf, List.length_map]
  exact List.length_filter_le _ _

theorem mem_ticketsOf : t ∈ ticketsOf l a ↔ (t, a) ∈ l := by
  simp only [ticketsOf, List.mem_map, List.mem_filter, beq_iff_eq, Prod.exists]
  constructor
  · rintro ⟨t, a, ⟨hmem, rfl⟩, rfl⟩
    exact hmem
  · exact fun hmem => ⟨t, a, ⟨hmem, rfl⟩, rfl⟩

end ticketsOf

namespace Lock

/-- The line for an access. -/
def line (l : Lock) : Access → WaitingLine Unit
  | .read => l.reads
  | .write => l.writes

/-- The lock with another line for an access. -/
def withLine (l : Lock) : Access → WaitingLine Unit → Lock
  | .read, reads => { l with reads }
  | .write, writes => { l with writes }

/-- The tickets of those to whom an access was granted, and who have not noticed. -/
def granted (l : Lock) (a : Access) : List Nat := (l.line a).granted.map (·.1)

/-- The lock with one more in the line for an access. -/
def joined (l : Lock) : Access → Lock
  | .read => { l with reads := l.reads.join l.nextTicket, nextTicket := l.nextTicket + 1 }
  | .write => { l with writes := l.writes.join l.nextTicket, nextTicket := l.nextTicket + 1 }

/-- The writes admitted so far, with those that the lock has admitted since. -/
def record (l : Lock) (admitted : List Nat) : List Nat :=
  admitted ++ (l.granted .write).filter (· ∉ admitted)

end Lock

/-- A lock, and those who share it. -/
structure Sharing where
  lock : Lock
  /-- The requests that have joined a line, and are neither noticed to be admitted nor over. -/
  pending : List (Nat × Access)
  /-- The reads that were in line when their time was over, and have not left it yet. -/
  lapsed : List Nat
  /-- What is held, by the ticket of the request. -/
  guards : List (Nat × Access)
  /-- The writes that have been admitted, in this order. -/
  admitted : List Nat

namespace Sharing

/-- A lock that nobody wants or has. -/
def start (maxWaitingReads : Nat) : Sharing := ⟨.new maxWaitingReads, [], [], [], []⟩

/-- The requests that are not over, and not noticed to be admitted. -/
def requests (x : Sharing) : List (Nat × Access) := x.pending ++ x.lapsed.map (·, .read)

/-- The largest number of handles on one lock. They are counted in 64 bits with a sign, and a
    program that would have more is stopped. -/
def maxHandles : Nat := 2 ^ 63 - 1

/-- The reads of a lock can be counted. -/
theorem maxHandles_le : maxHandles ≤ Saturating.ceiling := by decide

/-- How many handles there are: every request has one, and so has every guard. -/
def handles (x : Sharing) : Nat := x.requests.length + x.guards.length

/-- What is shared once the lock has changed. -/
def put (x : Sharing) (lock : Lock) : Sharing :=
  { x with lock, admitted := lock.record x.admitted }

/-- What can happen next. -/
inductive Step (x : Sharing) : Sharing → Prop
  /-- A request joins its line. -/
  | request {a : Access} {t : Nat} {lock : Lock} : x.handles < maxHandles →
      x.lock.request a = .ok (t, lock) → Step x { x.put lock with pending := x.pending ++ [(t, a)] }
  /-- A request fails at once. -/
  | refuse {a : Access} {e : PrimitiveError} : x.lock.request a = .error e → Step x x
  /-- A request is noticed to be admitted. -/
  | enter {t : Nat} {a : Access} {lock : Lock} : (t, a) ∈ x.pending →
      x.lock.receive t a = some lock →
      Step x { x.put lock with
        pending := x.pending.erase (t, a)
        guards := x.guards ++ [(t, a)] }
  /-- The time of a read is over while it is in line. -/
  | expire {t : Nat} : (t, .read) ∈ x.pending → t ∈ x.lock.reads.waiting →
      Step x { x with pending := x.pending.erase (t, .read), lapsed := x.lapsed ++ [t] }
  /-- A read whose time is over is withdrawn. -/
  | leave {t : Nat} : t ∈ x.lapsed →
      Step x { x.put (x.lock.withdraw t .read) with lapsed := x.lapsed.erase t }
  /-- A caller gives up waiting. -/
  | withdraw {t : Nat} {a : Access} : (t, a) ∈ x.pending →
      Step x { x.put (x.lock.withdraw t a) with pending := x.pending.erase (t, a) }
  /-- A guard is released. -/
  | release {t : Nat} {a : Access} : (t, a) ∈ x.guards →
      Step x { x.put (x.lock.release a) with guards := x.guards.erase (t, a) }

/-- What can have happened after any number of steps. -/
abbrev Reach : Sharing → Sharing → Prop := Relation.ReflTransGen Step

end Sharing

namespace Lock

variable {l l' : Lock} {requests requests' guards guards' : List (Nat × Access)}
  {admitted : List Nat} {a b : Access} {t : Nat}

/-! ## Tickets in order -/

/-- What is in the lines of a lock belongs to the requests there are, and those who have been
    admitted were so in order: the writes in the order of their requests, and the reads before
    all writes that are not over. -/
structure Ranks (l : Lock) (requests guards : List (Nat × Access)) (admitted : List Nat) :
    Prop where
  tickets : ∀ a, (l.line a).tickets.Perm (ticketsOf requests a)
  distinct : ((requests ++ guards).map (·.1)).Nodup
  drawn : ∀ e ∈ requests ++ guards, e.1 < l.nextTicket
  order : (admitted ++ l.writes.waiting).Pairwise (· < ·)
  past : ∀ t ∈ admitted, t < l.nextTicket
  recorded : ∀ t ∈ l.granted .write ++ ticketsOf guards .write, t ∈ admitted
  ahead : ∀ t ∈ l.granted .read ++ ticketsOf guards .read,
    ∀ t' ∈ l.writes.tickets ++ ticketsOf guards .write, t < t'

theorem line_joined_self (l : Lock) (a : Access) :
    (l.joined a).line a = (l.line a).join l.nextTicket := by
  cases a <;> rfl

theorem line_joined_of_ne (l : Lock) (h : a ≠ b) : (l.joined a).line b = l.line b := by
  cases a <;> cases b <;> first | rfl | exact absurd rfl h

@[simp] theorem nextTicket_withLine (l : Lock) (a : Access) (line : WaitingLine Unit) :
    (l.withLine a line).nextTicket = l.nextTicket := by
  cases a <;> rfl

@[simp] theorem writing_withLine (l : Lock) (a : Access) (line : WaitingLine Unit) :
    (l.withLine a line).writing = l.writing := by
  cases a <;> rfl

@[simp] theorem maxWaitingReads_withLine (l : Lock) (a : Access) (line : WaitingLine Unit) :
    (l.withLine a line).maxWaitingReads = l.maxWaitingReads := by
  cases a <;> rfl

theorem line_withLine_self (l : Lock) (a : Access) (line : WaitingLine Unit) :
    (l.withLine a line).line a = line := by
  cases a <;> rfl

theorem line_withLine_of_ne (l : Lock) (h : a ≠ b) (line : WaitingLine Unit) :
    (l.withLine a line).line b = l.line b := by
  cases a <;> cases b <;> first | rfl | exact absurd rfl h

/-- Who notices that it has been admitted takes what was granted out of its line. -/
theorem receive_eq (l : Lock) (t : Nat) (a : Access) :
    l.receive t a = ((l.line a).receive t).map fun r => l.withLine a r.2 := by
  cases a <;> rfl

theorem leave_eq (l : Lock) (t : Nat) (a : Access) :
    l.leave t a = ((l.line a).leave t).map (l.withLine a) := by
  cases a <;> rfl

theorem record_eq_self (h : ∀ t ∈ l.granted .write, t ∈ admitted) : l.record admitted = admitted := by
  rw [record, List.filter_eq_nil_iff.2 fun t ht => by simpa using h t ht, List.append_nil]

/-- What is taken out of one line, and nothing else, is one request less. -/
theorem tickets_without (h : ∀ b, (l.line b).tickets.Perm (ticketsOf requests b))
    (hp : requests.Perm ((t, a) :: requests'))
    (ha : (l.line a).tickets.Perm (t :: (l'.line a).tickets))
    (hb : ∀ b, b ≠ a → l'.line b = l.line b) (b : Access) :
    (l'.line b).tickets.Perm (ticketsOf requests' b) := by
  have hrequests := ticketsOf_perm hp b
  by_cases heq : b = a
  · subst heq
    rw [ticketsOf_cons_self] at hrequests
    exact (ha.symm.trans ((h b).trans hrequests)).cons_inv
  · rw [ticketsOf_cons_of_ne t (Ne.symm heq)] at hrequests
    rw [hb b heq]
    exact (h b).trans hrequests

namespace Ranks

theorem record_eq (h : l.Ranks requests guards admitted) : l.record admitted = admitted :=
  record_eq_self fun t ht => h.recorded t (List.mem_append_left _ ht)

theorem perm (h : l.Ranks requests guards admitted) (hr : requests'.Perm requests)
    (hg : guards'.Perm guards) : l.Ranks requests' guards' admitted where
  tickets a := (h.tickets a).trans (ticketsOf_perm hr.symm a)
  distinct := ((hr.append hg).map _).nodup_iff.2 h.distinct
  drawn e he := h.drawn e ((hr.append hg).mem_iff.1 he)
  order := h.order
  past := h.past
  recorded t ht := h.recorded t (((ticketsOf_perm hg _).append_left _).mem_iff.1 ht)
  ahead t ht t' ht' := h.ahead t (((ticketsOf_perm hg _).append_left _).mem_iff.1 ht) t'
    (((ticketsOf_perm hg _).append_left _).mem_iff.1 ht')

/-- Once an admitted one has noticed, it holds what was granted. -/
theorem receive (h : l.Ranks requests guards admitted) {next : Nat} (hl : (l.line a).Issued next)
    (hp : requests.Perm ((t, a) :: requests')) (hr : l.receive t a = some l') :
    l'.Ranks requests' ((t, a) :: guards) admitted := by
  obtain ⟨⟨_, line⟩, hreceive, rfl⟩ := Option.map_eq_some_iff.1 (receive_eq l t a ▸ hr)
  obtain ⟨hwaiting, hgranted⟩ := hl.perm_receive hreceive
  have htickets := hl.tickets_receive hreceive
  have hall : (requests' ++ (t, a) :: guards).Perm (requests ++ guards) :=
    List.perm_middle.trans (hp.symm.append_right guards)
  -- nobody comes or goes, whether one looks at all, or at those who have been admitted
  have hinside : ∀ b, (l.granted b ++ ticketsOf guards b).Perm
      ((l.withLine a line).granted b ++ ticketsOf ((t, a) :: guards) b) := by
    intro b
    by_cases heq : a = b
    · subst heq
      rw [ticketsOf_cons_self, Lock.granted, Lock.granted, line_withLine_self]
      exact ((hgranted.map (·.1)).append_right _).trans List.perm_middle.symm
    · rw [ticketsOf_cons_of_ne t heq, Lock.granted, Lock.granted, line_withLine_of_ne l heq]
  have halive : ∀ b, ((l.line b).tickets ++ ticketsOf guards b).Perm
      (((l.withLine a line).line b).tickets ++ ticketsOf ((t, a) :: guards) b) := by
    intro b
    by_cases heq : a = b
    · subst heq
      rw [ticketsOf_cons_self, line_withLine_self]
      exact (htickets.append_right _).trans List.perm_middle.symm
    · rw [ticketsOf_cons_of_ne t heq, line_withLine_of_ne l heq]
  have hsame : ((l.withLine a line).line .write).waiting = (l.line .write).waiting := by
    by_cases heq : a = .write
    · subst heq
      rw [line_withLine_self, hwaiting]
    · rw [line_withLine_of_ne l heq]
  exact {
    tickets := tickets_without h.tickets hp ((line_withLine_self l a line).symm ▸ htickets)
      fun b hb => line_withLine_of_ne l (Ne.symm hb) line
    distinct := (hall.map _).nodup_iff.2 h.distinct
    drawn := fun e he => nextTicket_withLine l a line ▸ h.drawn e (hall.mem_iff.1 he)
    order := (congrArg (fun waiting => (admitted ++ waiting).Pairwise (· < ·)) hsame).mpr h.order
    past := fun t' ht' => nextTicket_withLine l a line ▸ h.past t' ht'
    recorded := fun t' ht' => h.recorded t' ((hinside .write).mem_iff.2 ht')
    ahead := fun t' ht' t'' ht'' => h.ahead t' ((hinside .read).mem_iff.2 ht') t''
      ((halive .write).mem_iff.2 ht'') }

/-- A guard that is released is gone. -/
theorem release (h : l.Ranks requests guards admitted) (hp : guards.Perm ((t, a) :: guards')) :
    l.Ranks requests guards' admitted := by
  have hsub : ∀ (b : Access) (ts : List Nat), ts ++ ticketsOf guards' b ⊆ ts ++ ticketsOf guards b := by
    intro b ts
    refine List.append_subset.2 ⟨List.subset_append_left _ _, fun t' ht' => ?_⟩
    exact List.mem_append_right _
      (mem_ticketsOf.2 (hp.mem_iff.2 (List.mem_cons_of_mem _ (mem_ticketsOf.1 ht'))))
  have hall : (requests ++ guards).Perm ((t, a) :: (requests ++ guards')) :=
    (hp.append_left requests).trans List.perm_middle
  exact {
    tickets := h.tickets
    distinct := (List.nodup_cons.1 ((hall.map (·.1)).nodup_iff.1 h.distinct)).2
    drawn := fun e he => h.drawn e (hall.mem_iff.2 (List.mem_cons_of_mem _ he))
    order := h.order
    past := h.past
    recorded := fun t' ht' => h.recorded t' (hsub _ _ ht')
    ahead := fun t' ht' t'' ht'' => h.ahead t' (hsub _ _ ht') t'' (hsub _ _ ht'') }

/-- Who leaves the line leaves no trace in it. -/
theorem leave (h : l.Ranks requests guards admitted) (hp : requests.Perm ((t, a) :: requests'))
    (hl : l.leave t a = some l') : l'.Ranks requests' guards admitted := by
  obtain ⟨line, hleave, rfl⟩ := Option.map_eq_some_iff.1 (leave_eq l t a ▸ hl)
  obtain ⟨-, hgranted⟩ := WaitingLine.perm_leave hleave
  have htickets := WaitingLine.tickets_leave hleave
  have hall : (requests ++ guards).Perm ((t, a) :: (requests' ++ guards)) := hp.append_right guards
  have hsame : ∀ b, (l.withLine a line).granted b = l.granted b := by
    intro b
    by_cases heq : a = b
    · subst heq
      rw [Lock.granted, Lock.granted, line_withLine_self, hgranted]
    · rw [Lock.granted, Lock.granted, line_withLine_of_ne l heq]
  have hfewer : ∀ b, ((l.withLine a line).line b).tickets ⊆ (l.line b).tickets ∧
      ((l.withLine a line).line b).waiting.Sublist (l.line b).waiting := by
    intro b
    by_cases heq : a = b
    · subst heq
      rw [line_withLine_self]
      exact ⟨fun t' ht' => htickets.mem_iff.2 (List.mem_cons_of_mem _ ht'),
        WaitingLine.sublist_leave hleave⟩
    · rw [line_withLine_of_ne l heq]
      exact ⟨List.Subset.refl _, .refl _⟩
  exact {
    tickets := tickets_without h.tickets hp ((line_withLine_self l a line).symm ▸ htickets)
      fun b hb => line_withLine_of_ne l (Ne.symm hb) line
    distinct := (List.nodup_cons.1 ((hall.map (·.1)).nodup_iff.1 h.distinct)).2
    drawn := fun e he =>
      nextTicket_withLine l a line ▸ h.drawn e (hall.mem_iff.2 (List.mem_cons_of_mem _ he))
    order := h.order.sublist ((hfewer .write).2.append_left _)
    past := fun t' ht' => nextTicket_withLine l a line ▸ h.past t' ht'
    recorded := fun t' ht' => h.recorded t' (hsame .write ▸ ht')
    ahead := fun t' ht' t'' ht'' => h.ahead t' (hsame .read ▸ ht') t'' (by
      rcases List.mem_append.1 ht'' with ht'' | ht''
      · exact List.mem_append_left _ ((hfewer .write).1 ht'')
      · exact List.mem_append_right _ ht'') }

theorem lt_nextTicket (h : l.Ranks requests guards admitted)
    (ht : t ∈ (l.line a).tickets ++ ticketsOf guards a) : t < l.nextTicket := by
  rcases List.mem_append.1 ht with ht | ht
  · exact h.drawn (t, a) (List.mem_append_left _ (mem_ticketsOf.1 ((h.tickets a).mem_iff.1 ht)))
  · exact h.drawn (t, a) (List.mem_append_right _ (mem_ticketsOf.1 ht))

/-- A request that joins its line has a ticket that is later than all others. -/
theorem join (h : l.Ranks requests guards admitted) (a : Access) :
    (l.joined a).Ranks (requests ++ [(l.nextTicket, a)]) guards admitted := by
  have hall : (requests ++ [(l.nextTicket, a)] ++ guards).Perm
      ((l.nextTicket, a) :: (requests ++ guards)) := by
    rw [List.append_assoc]
    exact List.perm_middle
  have hdistinct : ((requests ++ [(l.nextTicket, a)] ++ guards).map (·.1)).Nodup := by
    refine (hall.map _).nodup_iff.2 (List.nodup_cons.2 ⟨fun hmem => ?_, h.distinct⟩)
    obtain ⟨e, he, heq⟩ := List.mem_map.1 hmem
    exact absurd (h.drawn e he) (heq ▸ Nat.lt_irrefl _)
  have hdrawn : ∀ e ∈ requests ++ [(l.nextTicket, a)] ++ guards, e.1 < l.nextTicket + 1 := by
    intro e he
    rcases List.mem_cons.1 (hall.mem_iff.1 he) with rfl | he
    · exact Nat.lt_succ_self _
    · exact Nat.lt_succ_of_lt (h.drawn e he)
  have hpast : ∀ t ∈ admitted, t < l.nextTicket + 1 := fun t ht => Nat.lt_succ_of_lt (h.past t ht)
  have htickets : ∀ b, ((l.joined a).line b).tickets.Perm
      (ticketsOf (requests ++ [(l.nextTicket, a)]) b) := by
    intro b
    rw [ticketsOf_append]
    by_cases heq : a = b
    · subst heq
      rw [ticketsOf_cons_self, ticketsOf_nil, line_joined_self]
      exact (WaitingLine.perm_join _ _).trans
        (((h.tickets a).cons _).trans (List.perm_append_singleton _ _).symm)
    · rw [ticketsOf_cons_of_ne _ heq, ticketsOf_nil, List.append_nil, line_joined_of_ne l heq]
      exact h.tickets b
  cases a with
  | read => exact ⟨htickets, hdistinct, hdrawn, h.order, hpast, h.recorded, h.ahead⟩
  | write =>
    refine ⟨htickets, hdistinct, hdrawn, ?_, hpast, h.recorded, fun t ht t' ht' => ?_⟩
    · change (admitted ++ (l.writes.waiting ++ [l.nextTicket])).Pairwise (· < ·)
      rw [← List.append_assoc]
      refine List.pairwise_append.2 ⟨h.order, List.pairwise_singleton _ _, fun t ht t' ht' => ?_⟩
      rw [List.mem_singleton.1 ht']
      rcases List.mem_append.1 ht with ht | ht
      · exact h.past t ht
      · exact h.lt_nextTicket (a := .write)
          (List.mem_append_left _ (List.mem_append_left _ ht))
    · have hperm : ((l.writes.join l.nextTicket).tickets ++ ticketsOf guards .write).Perm
          (l.nextTicket :: (l.writes.tickets ++ ticketsOf guards .write)) :=
        (WaitingLine.perm_join _ _).append_right _
      rcases List.mem_cons.1 (hperm.mem_iff.1 ht') with rfl | ht'
      · refine h.lt_nextTicket (a := .read) ?_
        rcases List.mem_append.1 ht with ht | ht
        · exact List.mem_append_left _ (List.mem_append_right _ ht)
        · exact List.mem_append_right _ ht
      · exact h.ahead t ht t' ht'

/-- The first write in line is the one with the earliest ticket, and comes after all writes that
    have been admitted. -/
theorem admitWrite (h : l.Ranks requests guards admitted) (hgranted : l.granted .write = [])
    (hguards : ticketsOf guards .write = []) {writes : WaitingLine Unit}
    (hserve : l.writes.serve () = some writes) :
    Ranks { l with writes, writing := true } requests guards
      (Lock.record { l with writes, writing := true } admitted) := by
  obtain ⟨t, hwaiting, hg⟩ := WaitingLine.waiting_serve hserve
  have horder := h.order
  rw [hwaiting] at horder
  have hnew : t ∉ admitted := fun hmem =>
    Nat.lt_irrefl t ((List.pairwise_append.1 horder).2.2 t hmem t List.mem_cons_self)
  have hnow : writes.granted.map (·.1) = [t] := by
    rw [hg, List.map_append, List.append_eq_singleton_iff]
    exact .inl ⟨hgranted, rfl⟩
  have hrecord : Lock.record { l with writes, writing := true } admitted = admitted ++ [t] := by
    simp only [record, Lock.granted, line, hnow]
    rw [List.filter_cons_of_pos (by simpa using hnew), List.filter_nil]
  rw [hrecord]
  exact {
    tickets := fun a => by
      cases a with
      | read => exact h.tickets .read
      | write => exact (WaitingLine.perm_serve hserve).trans (h.tickets .write)
    distinct := h.distinct
    drawn := h.drawn
    order := by
      rw [List.append_assoc]
      exact horder
    past := fun t' ht' => by
      rcases List.mem_append.1 ht' with ht' | ht'
      · exact h.past t' ht'
      · rw [List.mem_singleton.1 ht']
        refine h.lt_nextTicket (a := .write) (List.mem_append_left _ (List.mem_append_left _ ?_))
        rw [line, hwaiting]
        exact List.mem_cons_self
    recorded := fun t' ht' => by
      simp only [Lock.granted, line, hnow, hguards, List.append_nil] at ht'
      exact List.mem_append_right _ ht'
    ahead := fun t' ht' t'' ht'' => h.ahead t' ht' t''
      (((WaitingLine.perm_serve hserve).append_right _).mem_iff.1 ht'') }

/-- If nobody writes or waits to, all reads that wait are ahead of every write. -/
theorem admitReads (h : l.Ranks requests guards admitted)
    (hnone : l.writes.tickets ++ ticketsOf guards .write = []) :
    l.admitReads.Ranks requests guards admitted where
  tickets a := by
    cases a with
    | read => exact (WaitingLine.perm_serveAll _ _).trans (h.tickets .read)
    | write => exact h.tickets .write
  distinct := h.distinct
  drawn := h.drawn
  order := h.order
  past := h.past
  recorded := h.recorded
  ahead t' _ t'' ht'' := by
    rw [show l.admitReads.writes = l.writes from rfl, hnone] at ht''
    exact absurd ht'' List.not_mem_nil

/-- Whoever is admitted when it is its turn is admitted in order. -/
theorem schedule (h : l.Ranks requests guards admitted)
    (hnobody : l.writing = false → l.granted .write = [] ∧ ticketsOf guards .write = []) :
    l.schedule.Ranks requests guards (l.schedule.record admitted) := by
  simp only [Lock.schedule]
  split
  next => rwa [h.record_eq]
  next hw =>
    obtain ⟨hgranted, hguards⟩ := hnobody (Bool.not_eq_true _ ▸ hw)
    split
    next writes hserve => exact h.admitWrite hgranted hguards hserve
    next hserve =>
      have hnone : l.writes.tickets ++ ticketsOf guards .write = [] := by
        rw [WaitingLine.tickets, WaitingLine.serve_eq_none hserve, hguards,
          show l.writes.granted.map (·.1) = [] from hgranted]
        rfl
      have hranks := h.admitReads hnone
      rwa [hranks.record_eq]

end Ranks

/-! ## What the lock does for requests and guards -/

/-- If someone waits after all that the lock does, then a write has been admitted. -/
theorem waiting_schedule (l : Lock) (hw : l.schedule.writing = false) :
    l.schedule.reads.waiting = [] ∧ l.schedule.writes.waiting = [] := by
  simp only [schedule] at hw ⊢
  split at hw
  next hwriting => exact absurd hw (Bool.not_eq_false _ ▸ hwriting)
  next hwriting =>
    rw [if_neg hwriting]
    split at hw
    next => cases hw
    next hserve => exact ⟨rfl, WaitingLine.serve_eq_none hserve⟩

/-- No more reads wait than may, since they only become fewer. -/
theorem bounded_schedule (h : l.reads.waiting.length ≤ l.maxWaitingReads) :
    l.schedule.reads.waiting.length ≤ l.schedule.maxWaitingReads := by
  simp only [schedule]
  split
  next => exact h
  next =>
    split
    next => exact h
    next => exact Nat.zero_le _

/-- What a request does if there is room for it. -/
theorem request_cases (h : l.request a = .ok (t, l')) :
    t = l.nextTicket ∧ l' = (l.joined a).schedule ∧
      (a = .read → l.reads.waiting.length < l.maxWaitingReads) := by
  cases a with
  | read =>
    simp only [request, requestRead] at h
    split at h
    next => cases h
    next hfree =>
      cases h
      exact ⟨rfl, rfl, fun _ => Nat.lt_of_not_le hfree⟩
  | write =>
    cases h
    exact ⟨rfl, rfl, fun h => by cases h⟩

theorem releaseRead_eq (l : Lock) : ∃ readers, l.releaseRead = { l with readers } := by
  simp only [releaseRead]
  split
  next readers _ => exact ⟨readers, rfl⟩
  next => exact ⟨l.readers, rfl⟩

/-- Who is in a line and does not wait has been admitted. -/
theorem receive_of_leave (hmem : t ∈ (l.line a).tickets) (h : l.leave t a = none) :
    ∃ l', l.receive t a = some l' := by
  rw [leave_eq, Option.map_eq_none_iff] at h
  obtain ⟨_, line, hreceive⟩ := WaitingLine.receive_of_leave hmem h
  rw [receive_eq, hreceive]
  exact ⟨_, rfl⟩

/-- How a lock serves the requests and guards there are. A write with a guard may still have to
    wait for the reads before, so that it is only known that it has been admitted. -/
structure Serves (l : Lock) (requests guards : List (Nat × Access)) (admitted : List Nat) :
    Prop where
  ranks : l.Ranks requests guards admitted
  keeps : ∃ room, l.Keeps (ticketsOf guards .read).length 0
    (.replicate (ticketsOf guards .write).length .fresh) room
  idle : l.writing = false → l.reads.waiting = [] ∧ l.writes.waiting = []
  bounded : l.reads.waiting.length ≤ l.maxWaitingReads

theorem serves_new (n : Nat) : (new n).Serves [] [] [] where
  ranks := {
    tickets := fun a => by cases a <;> exact .refl _
    distinct := List.nodup_nil
    drawn := fun _ he => absurd he List.not_mem_nil
    order := .nil
    past := fun _ ht => absurd ht List.not_mem_nil
    recorded := fun _ ht => absurd ht List.not_mem_nil
    ahead := fun _ ht => absurd ht List.not_mem_nil }
  keeps := ⟨0, keeps_new (Nat.zero_le _)⟩
  idle _ := ⟨rfl, rfl⟩
  bounded := Nat.zero_le _

namespace Keeps

variable {reading writing room : Nat} {draining : List Barrier.Wait}

theorem issued (h : l.Keeps reading writing draining room) (a : Access) :
    (l.line a).Issued l.nextTicket := by
  cases a with
  | read => exact h.reads
  | write => exact h.writes

end Keeps

namespace Serves

theorem perm (h : l.Serves requests guards admitted) (hr : requests'.Perm requests)
    (hg : guards'.Perm guards) : l.Serves requests' guards' admitted := by
  refine ⟨h.ranks.perm hr hg, ?_, h.idle, h.bounded⟩
  rw [(ticketsOf_perm hg .read).length_eq, (ticketsOf_perm hg .write).length_eq]
  exact h.keeps

/-- Without a write that was admitted and is not over, none has been granted and none is held. -/
theorem nobody (h : l.Serves requests guards admitted) (hw : l.writing = false) :
    l.granted .write = [] ∧ ticketsOf guards .write = [] := by
  obtain ⟨room, hk⟩ := h.keeps
  obtain ⟨hgranted, -, hdraining⟩ := hk.nobody hw
  refine ⟨List.map_eq_nil_iff.2 hgranted, List.length_eq_zero_iff.1 ?_⟩
  exact (List.replicate_eq_nil_iff _).1 hdraining

/-- A request joins its line, and is admitted at once if it is its turn. -/
theorem request (h : l.Serves requests guards admitted)
    (hroom : requests.length + guards.length < Saturating.ceiling)
    (hr : l.request a = .ok (t, l')) :
    l'.Serves (requests ++ [(t, a)]) guards (l'.record admitted) := by
  obtain ⟨room, hk⟩ := h.keeps
  have hreads := (h.ranks.tickets .read).length_eq
  rw [WaitingLine.tickets, List.length_append, List.length_map] at hreads
  have hcounted : l.Keeps (ticketsOf guards .read).length 0
      (.replicate (ticketsOf guards .write).length .fresh) (requests.length + guards.length) :=
    { hk with
      bounded := Nat.add_le_add (hreads ▸ length_ticketsOf_le _ _) (length_ticketsOf_le _ _)
      counted := Nat.le_of_lt hroom }
  have hkeeps : ∃ room', l'.Keeps (ticketsOf guards .read).length 0
      (.replicate (ticketsOf guards .write).length .fresh) room' := by
    cases a with
    | read => exact ⟨_, hcounted.requestRead hroom hr⟩
    | write =>
      cases hr
      exact ⟨_, hcounted.requestWrite⟩
  obtain ⟨rfl, rfl, hfree⟩ := request_cases hr
  have hnobody := h.nobody
  refine ⟨(h.ranks.join a).schedule ?_, hkeeps, waiting_schedule _, bounded_schedule ?_⟩
  · cases a <;> exact hnobody
  · cases a with
    | read =>
      simp only [joined, WaitingLine.join, List.length_append, List.length_singleton]
      exact hfree rfl
    | write => exact h.bounded

/-- An admitted request gets its guard. -/
theorem receive (h : l.Serves requests guards admitted) (hp : requests.Perm ((t, a) :: requests'))
    (hr : l.receive t a = some l') : l'.Serves requests' ((t, a) :: guards) admitted := by
  obtain ⟨room, hk⟩ := h.keeps
  have hkeeps : ∃ room', l'.Keeps (ticketsOf ((t, a) :: guards) .read).length 0
      (.replicate (ticketsOf ((t, a) :: guards) .write).length .fresh) room' := by
    cases a with
    | read =>
      rw [ticketsOf_cons_self, ticketsOf_cons_of_ne t (by decide)]
      exact ⟨room, hk.receiveRead hr⟩
    | write =>
      rw [ticketsOf_cons_self, ticketsOf_cons_of_ne t (by decide), List.length_cons,
        List.replicate_succ]
      exact ⟨room, hk.receiveWrite hr⟩
  have hranks := h.ranks.receive (hk.issued a) hp hr
  obtain ⟨⟨_, line⟩, hreceive, rfl⟩ := Option.map_eq_some_iff.1 (receive_eq l t a ▸ hr)
  have hwaiting := ((hk.issued a).receive hreceive).1
  refine ⟨hranks, hkeeps, fun hw => ?_, ?_⟩
  · obtain ⟨hreads, hwrites⟩ := h.idle (writing_withLine l a line ▸ hw)
    cases a with
    | read => exact ⟨hwaiting.trans hreads, hwrites⟩
    | write => exact ⟨hreads, hwaiting.trans hwrites⟩
  · cases a with
    | read => exact hwaiting ▸ h.bounded
    | write => exact h.bounded

/-- A guard is released, and those whose turn it is then are admitted. -/
theorem release (h : l.Serves requests guards admitted) (hp : guards.Perm ((t, a) :: guards')) :
    (l.release a).Serves requests guards' ((l.release a).record admitted) := by
  obtain ⟨room, hk⟩ := h.keeps
  have hranks := h.ranks.release hp
  have hreads := ticketsOf_perm hp .read
  have hwrites := ticketsOf_perm hp .write
  cases a with
  | read =>
    rw [ticketsOf_cons_self] at hreads
    rw [ticketsOf_cons_of_ne t (by decide)] at hwrites
    rw [hreads.length_eq, hwrites.length_eq] at hk
    have hkeeps := hk.releaseRead
    obtain ⟨readers, heq⟩ := l.releaseRead_eq
    simp only [Lock.release]
    rw [heq] at hkeeps ⊢
    have hranks' : Ranks { l with readers } requests guards' admitted := { hranks with }
    rw [hranks'.record_eq]
    exact ⟨hranks', ⟨room, hkeeps⟩, h.idle, h.bounded⟩
  | write =>
    rw [ticketsOf_cons_of_ne t (by decide)] at hreads
    rw [ticketsOf_cons_self] at hwrites
    rw [hreads.length_eq, hwrites.length_eq] at hk
    have hranks' : Ranks { l with writing := false } requests guards' admitted := { hranks with }
    have hwriters := hk.writers
    have hle := Bool.toNat_le l.writing
    rw [List.length_replicate, List.length_cons] at hwriters
    -- the write that is released was the only one, so that nobody writes now
    refine ⟨hranks'.schedule fun _ => ?_, ⟨room, hk.releaseWrite ?_⟩, waiting_schedule _,
      bounded_schedule h.bounded⟩
    · refine ⟨List.map_eq_nil_iff.2 (List.length_eq_zero_iff.1 ?_), List.length_eq_zero_iff.1 ?_⟩
      · change l.writes.granted.length = 0
        omega
      · omega
    · rw [List.length_replicate, List.length_replicate, List.length_cons, Nat.add_assoc]

/-- A request leaves the line in which it is. -/
theorem leave (h : l.Serves requests guards admitted) (hp : requests.Perm ((t, a) :: requests'))
    (hl : l.leave t a = some l') : l'.Serves requests' guards admitted := by
  obtain ⟨room, hk⟩ := h.keeps
  have hkeeps := hk.leave hl
  have hranks := h.ranks.leave hp hl
  obtain ⟨line, hleave, rfl⟩ := Option.map_eq_some_iff.1 (leave_eq l t a ▸ hl)
  have hsublist := WaitingLine.sublist_leave hleave
  refine ⟨hranks, ⟨room, hkeeps⟩, fun hw => ?_, ?_⟩
  · obtain ⟨hreads, hwrites⟩ := h.idle (writing_withLine l a line ▸ hw)
    cases a with
    | read => exact ⟨List.sublist_nil.1 (hreads ▸ hsublist), hwrites⟩
    | write => exact ⟨hreads, List.sublist_nil.1 (hwrites ▸ hsublist)⟩
  · cases a with
    | read => exact Nat.le_trans hsublist.length_le h.bounded
    | write => exact h.bounded

/-- A request is withdrawn, however far it is. -/
theorem withdraw (h : l.Serves requests guards admitted)
    (hp : requests.Perm ((t, a) :: requests')) :
    (l.withdraw t a).Serves requests' guards ((l.withdraw t a).record admitted) := by
  simp only [Lock.withdraw]
  split
  next l' hleave =>
    have hleft := h.leave hp hleave
    rwa [hleft.ranks.record_eq]
  next hleave =>
    have hmem : t ∈ (l.line a).tickets :=
      (h.ranks.tickets a).mem_iff.2 (mem_ticketsOf.2 (hp.mem_iff.2 List.mem_cons_self))
    obtain ⟨l', hreceive⟩ := receive_of_leave hmem hleave
    rw [hreceive]
    exact (h.receive hp hreceive).release (.refl _)

/-- Once nobody wants or has the lock, it is as it was at first, but for the next ticket and for
    how often its reads have been over. -/
theorem eq_new (h : l.Serves [] [] admitted) :
    l = { new l.maxWaitingReads with
      nextTicket := l.nextTicket
      readers := ⟨0, l.readers.openings⟩ } := by
  obtain ⟨room, hk⟩ := h.keeps
  have hreaders := hk.readers
  have hwriters := hk.writers
  have hreads := (h.ranks.tickets .read).eq_nil
  have hwrites := (h.ranks.tickets .write).eq_nil
  obtain ⟨max, ⟨readsWaiting, readsGranted⟩, ⟨writesWaiting, writesGranted⟩, writing,
    ⟨count, openings⟩, next⟩ := l
  simp only [line, WaitingLine.tickets, List.append_eq_nil_iff, List.map_eq_nil_iff] at hreads hwrites
  obtain ⟨rfl, rfl⟩ := hreads
  obtain ⟨rfl, rfl⟩ := hwrites
  obtain rfl : writing = false := Bool.toNat_eq_zero.1 hwriters.symm
  obtain rfl : count = 0 := hreaders
  rfl

end Serves

end Lock

namespace Lock

/-! ## The room for reads that wait -/

variable {l l' : Lock} {a : Access} {t : Nat}

@[simp] theorem maxWaitingReads_schedule (l : Lock) :
    l.schedule.maxWaitingReads = l.maxWaitingReads := by
  simp only [schedule]
  split
  next => rfl
  next => split <;> rfl

theorem maxWaitingReads_joined (l : Lock) (a : Access) :
    (l.joined a).maxWaitingReads = l.maxWaitingReads := by
  cases a <;> rfl

theorem maxWaitingReads_receive (h : l.receive t a = some l') :
    l'.maxWaitingReads = l.maxWaitingReads := by
  obtain ⟨_, -, rfl⟩ := Option.map_eq_some_iff.1 (receive_eq l t a ▸ h)
  exact maxWaitingReads_withLine _ _ _

theorem maxWaitingReads_leave (h : l.leave t a = some l') :
    l'.maxWaitingReads = l.maxWaitingReads := by
  obtain ⟨_, -, rfl⟩ := Option.map_eq_some_iff.1 (leave_eq l t a ▸ h)
  exact maxWaitingReads_withLine _ _ _

@[simp] theorem maxWaitingReads_release (l : Lock) (a : Access) :
    (l.release a).maxWaitingReads = l.maxWaitingReads := by
  cases a with
  | read =>
    obtain ⟨readers, heq⟩ := l.releaseRead_eq
    rw [release, heq]
  | write => exact maxWaitingReads_schedule _

@[simp] theorem maxWaitingReads_withdraw (l : Lock) (t : Nat) (a : Access) :
    (l.withdraw t a).maxWaitingReads = l.maxWaitingReads := by
  simp only [withdraw]
  split
  next hleave => exact maxWaitingReads_leave hleave
  next =>
    split
    next hreceive => rw [maxWaitingReads_release, maxWaitingReads_receive hreceive]
    next => rfl

end Lock

/-! ## Any number of steps -/

namespace Sharing

variable {x x' : Sharing} {a : Access} {t max : Nat}

theorem requests_erase (h : (t, a) ∈ x.pending) :
    x.requests.Perm ((t, a) :: (x.pending.erase (t, a) ++ x.lapsed.map (·, .read))) :=
  (List.perm_cons_erase h).append_right _

theorem Step.serves (h : x.lock.Serves x.requests x.guards x.admitted) (hstep : Step x x') :
    x'.lock.Serves x'.requests x'.guards x'.admitted := by
  cases hstep with
  | request hroom hr =>
    refine (h.request (Nat.lt_of_lt_of_le hroom maxHandles_le) hr).perm ?_ (.refl _)
    simp only [requests, put, List.append_assoc]
    exact List.perm_append_comm.append_left _
  | refuse => exact h
  | enter hmem hr =>
    have hserves := h.receive (requests_erase hmem) hr
    simp only [put]
    rw [hserves.ranks.record_eq]
    exact hserves.perm (.refl _) (List.perm_append_singleton _ _)
  | expire hmem =>
    refine h.perm ((requests_erase hmem).trans ?_).symm (.refl _)
    simp only [requests, List.map_append, List.map_singleton, ← List.append_assoc]
    exact (List.perm_append_singleton _ _).symm
  | @leave t hmem =>
    refine h.withdraw (List.Perm.trans ?_ List.perm_middle)
    exact ((List.perm_cons_erase hmem).map _).append_left _
  | withdraw hmem => exact h.withdraw (requests_erase hmem)
  | release hmem => exact h.release (List.perm_cons_erase hmem)

theorem Step.maxWaitingReads (hstep : Step x x') :
    x'.lock.maxWaitingReads = x.lock.maxWaitingReads := by
  cases hstep with
  | request _ hr =>
    obtain ⟨-, rfl, -⟩ := request_cases hr
    exact (maxWaitingReads_schedule _).trans (maxWaitingReads_joined _ _)
  | refuse => rfl
  | enter _ hr => exact maxWaitingReads_receive hr
  | expire => rfl
  | leave => exact maxWaitingReads_withdraw _ _ _
  | withdraw => exact maxWaitingReads_withdraw _ _ _
  | release => exact maxWaitingReads_release _ _

/-- What is in the lock belongs to the requests and guards there are, whatever has happened. -/
theorem Reach.serves (hx : Reach (start max) x) :
    x.lock.Serves x.requests x.guards x.admitted ∧ x.lock.maxWaitingReads = max := by
  induction hx with
  | refl => exact ⟨serves_new max, rfl⟩
  | tail _ hstep ih => exact ⟨hstep.serves ih.1, hstep.maxWaitingReads.trans ih.2⟩

end Sharing

end ConsensusCore
