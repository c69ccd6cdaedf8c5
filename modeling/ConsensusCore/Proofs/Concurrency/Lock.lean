import ConsensusCore.Concurrency.Lock.Callers
import ConsensusCore.Proofs.Concurrency.Simulation
import ConsensusCore.Proofs.Concurrency.WaitingLine

/-!
# Exclusion by a lock

The barrier of a lock counts the reads that have been admitted: those that have not noticed,
and those that hold the lock. A write is admitted if no other is, and nothing is admitted
besides it. So the count only falls while the write waits for the reads before it, and once
it has come to zero it stays there until the write is over.

* `Lock.Keeps.schedule`: admitting those whose turn it is keeps the counts;
* `SharedLock.exclusion`: of those who write, there is at most one, and then nobody reads or
  has been admitted to read.
-/

namespace ConsensusCore

open Lock

/-! ## Waiting for the reads before -/

namespace Barrier

/-- If the barrier has opened since the wait began, its count is still zero. -/
def Wait.Sound (b : Barrier) : Wait → Prop
  | .fresh => True
  | .since openings => b.openings ≠ openings → b.count = 0

variable {b b' : Barrier} {w w' : Wait}

theorem Wait.Sound.count_eq_zero (hw : w.Sound b) (h : w.poll b = none) : b.count = 0 := by
  cases w with
  | fresh =>
    simp only [Wait.poll] at h
    split at h
    next hcount => exact hcount
    next => cases h
  | since openings =>
    simp only [Wait.poll] at h
    split at h
    next hover => exact hover.elim id hw
    next => cases h

theorem Wait.sound_of_poll (h : w.poll b = some w') : w'.Sound b := by
  cases w with
  | fresh =>
    simp only [Wait.poll] at h
    split at h
    next => cases h
    next =>
      cases h
      exact absurd rfl
  | since openings =>
    simp only [Wait.poll] at h
    split at h
    next => cases h
    next hnot =>
      cases h
      exact fun hne => absurd (.inr hne) hnot

/-- Lowering the count takes one away, and is noticed by those who wait. -/
theorem decrease_one (hcount : 0 < b.count) :
    ∃ b', b.decrease 1 = .ok b' ∧ b'.count + 1 = b.count ∧ ∀ w : Wait, w.Sound b → w.Sound b' := by
  refine ⟨_, if_neg (Nat.not_lt.2 hcount), Nat.sub_add_cancel hcount, fun w hw => ?_⟩
  cases w with
  | fresh => trivial
  | since openings =>
    intro hne
    dsimp only at hne ⊢
    split at hne
    next hone => rw [hone.1]
    next => rw [hw hne] at hcount; exact absurd hcount (Nat.lt_irrefl _)

end Barrier

namespace Lock

/-! ## What a lock keeps -/

/-- What a lock keeps while so many read and write that have noticed it, and the writes that
    have been admitted and noticed it wait for the reads before as `draining` tells. There
    is room for `room` reads. -/
structure Keeps (l : Lock) (reading writing : Nat) (draining : List Barrier.Wait) (room : Nat) :
    Prop where
  readers : l.readers.count = l.reads.granted.length + reading
  writers : l.writes.granted.length + writing + draining.length = l.writing.toNat
  apart : 0 < writing → l.readers.count = 0
  sound : ∀ w ∈ draining, w.Sound l.readers
  reads : l.reads.Issued l.nextTicket
  writes : l.writes.Issued l.nextTicket
  bounded : l.reads.waiting.length + l.reads.granted.length + reading ≤ room
  counted : room ≤ Saturating.ceiling

theorem keeps_new {n room : Nat} (hroom : room ≤ Saturating.ceiling) : (new n).Keeps 0 0 [] room :=
  ⟨rfl, rfl, fun _ => rfl, fun _ hw => absurd hw List.not_mem_nil, WaitingLine.issued_empty _,
    WaitingLine.issued_empty _, Nat.zero_le _, hroom⟩

namespace Keeps

variable {l l' : Lock} {reading writing room room' t : Nat} {draining draining' : List Barrier.Wait}
  {w w' : Barrier.Wait}

theorem perm (h : l.Keeps reading writing draining room) (hp : draining'.Perm draining) :
    l.Keeps reading writing draining' room :=
  { h with
    writers := hp.length_eq ▸ h.writers
    sound := fun w hw => h.sound w (hp.mem_iff.1 hw) }

/-- Without a write, nobody writes or waits to. -/
theorem nobody (h : l.Keeps reading writing draining room) (hw : l.writing = false) :
    l.writes.granted = [] ∧ writing = 0 ∧ draining = [] := by
  have hwriters := h.writers
  rw [hw, Bool.toNat_false, Nat.add_eq_zero_iff, Nat.add_eq_zero_iff] at hwriters
  exact ⟨List.length_eq_zero_iff.1 hwriters.1.1, hwriters.1.2, List.length_eq_zero_iff.1 hwriters.2⟩

/-- Admitting those whose turn it is keeps the counts. -/
theorem schedule (h : l.Keeps reading writing draining room) :
    l.schedule.Keeps reading writing draining room := by
  simp only [Lock.schedule]
  split
  next => exact h
  next hw =>
    obtain ⟨hgranted, rfl, rfl⟩ := h.nobody (Bool.not_eq_true _ ▸ hw)
    split
    next writes hserve =>
      obtain ⟨t, -, hg⟩ := WaitingLine.waiting_serve hserve
      refine { h with writers := ?_, apart := fun hpos => ?_, writes := h.writes.serve hserve }
      · rw [hg, hgranted]
        rfl
      · exact absurd hpos (Nat.lt_irrefl _)
    next =>
      have hbounded := h.bounded
      have hcount : l.reads.granted.length + reading + l.reads.waiting.length ≤
          Saturating.ceiling := by
        refine Nat.le_trans ?_ (Nat.le_trans hbounded h.counted)
        omega
      refine { h with
        readers := ?_, apart := fun hpos => ?_, sound := fun _ hw => ?_
        reads := h.reads.serveAll (), bounded := ?_ }
      · simp only [admitReads, Barrier.increase, Saturating.add, h.readers, Nat.min_eq_left hcount,
          WaitingLine.serveAll, List.length_append, List.length_map]
        omega
      · exact absurd hpos (Nat.lt_irrefl _)
      · exact absurd hw List.not_mem_nil
      · simp only [admitReads, WaitingLine.serveAll, List.length_append, List.length_map,
          List.length_nil]
        omega

/-- One more waits to read, for whom there must be room. -/
theorem requestRead (h : l.Keeps reading writing draining room) (hroom : room < Saturating.ceiling)
    (hr : l.requestRead = .ok (t, l')) : l'.Keeps reading writing draining (room + 1) := by
  simp only [Lock.requestRead] at hr
  split at hr
  next => cases hr
  next =>
    cases hr
    refine Keeps.schedule { h with
      reads := h.reads.join, writes := h.writes.mono (Nat.le_succ _), bounded := ?_
      counted := hroom }
    have hbounded := h.bounded
    simp only [WaitingLine.join, List.length_append, List.length_singleton]
    omega

theorem requestWrite (h : l.Keeps reading writing draining room) :
    l.requestWrite.2.Keeps reading writing draining room :=
  Keeps.schedule { h with reads := h.reads.mono (Nat.le_succ _), writes := h.writes.join }

/-- A read that notices that it was admitted holds the lock. -/
theorem receiveRead (h : l.Keeps reading writing draining room) (hr : l.receive t .read = some l') :
    l'.Keeps (reading + 1) writing draining room := by
  obtain ⟨⟨_, reads⟩, hreceive, rfl⟩ := Option.map_eq_some_iff.1 hr
  obtain ⟨hw, hg, hreads⟩ := h.reads.receive hreceive
  have hbounded := h.bounded
  refine { h with readers := h.readers.trans ?_, reads := hreads, bounded := ?_ }
  · dsimp only
    omega
  · dsimp only
    rw [hw]
    omega

/-- A write that notices that it was admitted begins to wait for the reads before. -/
theorem receiveWrite (h : l.Keeps reading writing draining room)
    (hr : l.receive t .write = some l') : l'.Keeps reading writing (.fresh :: draining) room := by
  obtain ⟨⟨_, writes⟩, hreceive, rfl⟩ := Option.map_eq_some_iff.1 hr
  obtain ⟨-, hg, hwrites⟩ := h.writes.receive hreceive
  have hwriters := h.writers
  refine { h with
    writers := ?_
    sound := List.forall_mem_cons.2 ⟨trivial, h.sound⟩
    writes := hwrites }
  dsimp only
  rw [List.length_cons]
  omega

/-- A write that waits for the reads before looks at the barrier. -/
theorem drain_on (h : l.Keeps reading writing (w :: draining) room)
    (hw : w.poll l.readers = some w') : l.Keeps reading writing (w' :: draining) room :=
  { h with
    writers := h.writers
    sound := List.forall_mem_cons.2 ⟨Barrier.Wait.sound_of_poll hw,
      (List.forall_mem_cons.1 h.sound).2⟩ }

/-- When that wait is over, nobody reads. -/
theorem drained (h : l.Keeps reading writing (w :: draining) room)
    (hw : w.poll l.readers = none) : l.Keeps reading (writing + 1) draining room := by
  have hsound := List.forall_mem_cons.1 h.sound
  have hwriters := h.writers
  rw [List.length_cons] at hwriters
  refine { h with
    writers := ?_, apart := fun _ => hsound.1.count_eq_zero hw, sound := hsound.2 }
  omega

theorem releaseRead (h : l.Keeps (reading + 1) writing draining room) :
    l.releaseRead.Keeps reading writing draining room := by
  have hreaders := h.readers
  have hbounded := h.bounded
  obtain ⟨b, hb, hcount, hsound⟩ := Barrier.decrease_one (b := l.readers) (by omega)
  simp only [Lock.releaseRead, hb]
  refine { h with
    readers := ?_, apart := fun hpos => ?_, sound := fun w hw => hsound w (h.sound w hw)
    bounded := ?_ }
  · dsimp only
    omega
  · have hzero := h.apart hpos
    omega
  · dsimp only
    omega

/-- Whoever gives up a write was the only one to have been admitted to write. -/
theorem releaseWrite (h : l.Keeps reading writing draining room) {writing' : Nat}
    (hone : writing' + draining'.length + 1 = writing + draining.length) :
    l.releaseWrite.Keeps reading writing' draining' room := by
  have hwriters := h.writers
  have hle := Bool.toNat_le l.writing
  have hzero : writing' = 0 ∧ draining'.length = 0 := by omega
  obtain ⟨rfl, hnil⟩ := hzero
  obtain rfl := List.length_eq_zero_iff.1 hnil
  refine Keeps.schedule { h with
    writers := ?_, apart := fun hpos => absurd hpos (Nat.lt_irrefl _)
    sound := fun _ hw => absurd hw List.not_mem_nil }
  simp only [List.length_nil, Bool.toNat_false]
  omega

theorem leave {a : Access} (h : l.Keeps reading writing draining room)
    (hl : l.leave t a = some l') : l'.Keeps reading writing draining room := by
  cases a with
  | read =>
    obtain ⟨reads, hleave, rfl⟩ := Option.map_eq_some_iff.1 hl
    obtain ⟨hw, hg, hreads⟩ := h.reads.leave hleave
    have hbounded := h.bounded
    refine { h with readers := ?_, reads := hreads, bounded := ?_ }
    · dsimp only
      rw [hg]
      exact h.readers
    · dsimp only
      rw [hg]
      omega
  | write =>
    obtain ⟨writes, hleave, rfl⟩ := Option.map_eq_some_iff.1 hl
    obtain ⟨-, hg, hwrites⟩ := h.writes.leave hleave
    refine { h with writers := ?_, writes := hwrites }
    dsimp only
    rw [hg]
    exact h.writers

/-- Withdrawing a request keeps the counts, whatever has become of it. -/
theorem withdraw (h : l.Keeps reading writing draining room) (t : Nat) (a : Access) :
    (l.withdraw t a).Keeps reading writing draining room := by
  simp only [Lock.withdraw]
  split
  next hleave => exact h.leave hleave
  next =>
    split
    next hreceive =>
      cases a with
      | read => exact (h.receiveRead hreceive).releaseRead
      | write =>
        refine (h.receiveWrite hreceive).releaseWrite ?_
        rw [List.length_cons, Nat.add_assoc]
    next => exact h

theorem release (h : l.Keeps reading writing draining room) (a : Access) {reading' writing' : Nat}
    (hr : reading = reading' + if a = .read then 1 else 0)
    (hw : writing = writing' + if a = .write then 1 else 0) :
    (l.release a).Keeps reading' writing' draining room := by
  subst hr hw
  cases a with
  | read => exact h.releaseRead
  | write => exact h.releaseWrite (by simp only [if_true]; omega)

end Keeps

/-! ## What the callers hold -/

/-- The access for which a call holds the lock, while its task runs. -/
def Call.holds (c : Call) : Option Access :=
  match c.stage with
  | .running => some c.request.access
  | _ => none

/-- The wait of a call for the reads before it. -/
def Call.drains (c : Call) : Option Barrier.Wait :=
  match c.stage with
  | .draining w => some w
  | _ => none

/-- Whether a call has not been polled. -/
def Call.arrives (c : Call) : Bool := c.stage == .fresh

end Lock

namespace SharedLock

/-- How many hold the lock for an access: it was granted to them and they keep it, or their
    task runs. -/
def holders (a : Access) (s : SharedLock) (calls : List (Caller × Call)) : Nat :=
  s.held.countP (·.2 == .guard a) + calls.countP (·.2.holds == some a)

/-- What callers keep, of whom `n` have come. -/
structure Sound (s : SharedLock) (calls : List (Caller × Call)) (n : Nat) : Prop where
  keeps : ∃ room, room + calls.countP (·.2.arrives) ≤ n ∧ s.lock.Keeps (s.holders .read calls)
    (s.holders .write calls) (calls.filterMap (·.2.drains)) room
  drains : ∀ e ∈ calls, e.2.drains ≠ none → e.2.request = .write
  names : (s.held.map (·.1)).Nodup

theorem sound_new (max n : Nat) : (new max).Sound [] n :=
  ⟨⟨0, Nat.zero_le _, keeps_new (Nat.zero_le _)⟩, fun _ he => absurd he List.not_mem_nil,
    List.nodup_nil⟩

variable {s s' : SharedLock} {caller : Caller} {c : Call} {calls calls' : List (Caller × Call)}
  {n now t : Nat} {p : Polled SharedLock Call Event} {w : Barrier.Wait} {lock : Lock}
  {deadline : Option Nat}

theorem holders_cons (a : Access) (s : SharedLock) (e : Caller × Call)
    (calls : List (Caller × Call)) :
    s.holders a (e :: calls) = s.holders a calls + if e.2.holds = some a then 1 else 0 := by
  simp only [holders, List.countP_cons, beq_iff_eq, Nat.add_assoc]

theorem holders_append (a : Access) (s : SharedLock) (name : String) (h : Held)
    (calls : List (Caller × Call)) :
    holders a { s with held := s.held ++ [(name, h)] } calls =
      s.holders a calls + if h = .guard a then 1 else 0 := by
  simp only [holders, List.countP_append, List.countP_singleton, beq_iff_eq, Nat.add_right_comm]

theorem holders_openGate (a : Access) (s : SharedLock) (calls : List (Caller × Call)) :
    (s.openGate caller).holders a calls = s.holders a calls := by
  simp only [holders, openGate]
  by_cases hmem : gateOf caller ∈ s.held
  · rw [(List.perm_cons_erase hmem).countP_eq, List.countP_cons]
    rfl
  · rw [List.erase_of_not_mem hmem]

theorem holds_fresh (r : Request) (u : Purpose) : (⟨r, u, .fresh⟩ : Call).holds = none := rfl

theorem drains_fresh (r : Request) (u : Purpose) : (⟨r, u, .fresh⟩ : Call).drains = none := rfl

theorem holds_queued (r : Request) (u : Purpose) (t : Nat) (deadline : Option Nat) :
    (⟨r, u, .queued t deadline⟩ : Call).holds = none := rfl

theorem holds_draining (r : Request) (u : Purpose) (w : Barrier.Wait) :
    (⟨r, u, .draining w⟩ : Call).holds = none := rfl

theorem holds_running (r : Request) (u : Purpose) :
    (⟨r, u, .running⟩ : Call).holds = some r.access := rfl

theorem drains_queued (r : Request) (u : Purpose) (t : Nat) (deadline : Option Nat) :
    (⟨r, u, .queued t deadline⟩ : Call).drains = none := rfl

theorem drains_draining (r : Request) (u : Purpose) (w : Barrier.Wait) :
    (⟨r, u, .draining w⟩ : Call).drains = some w := rfl

theorem drains_running (r : Request) (u : Purpose) :
    (⟨r, u, .running⟩ : Call).drains = none := rfl

namespace Sound

theorem perm (h : s.Sound calls n) (hp : calls'.Perm calls) : s.Sound calls' n := by
  obtain ⟨room, hroom, hk⟩ := h.keeps
  refine ⟨⟨room, ?_, ?_⟩, fun e he => h.drains e (hp.mem_iff.1 he), h.names⟩
  · rw [hp.countP_eq]
    exact hroom
  · simp only [holders, hp.countP_eq] at hk ⊢
    exact hk.perm (hp.filterMap _)

theorem arrive (h : s.Sound calls n) (caller : Caller) (hc : c.stage = .fresh) :
    s.Sound ((caller, c) :: calls) (n + 1) := by
  obtain ⟨request, purpose, stage⟩ := c
  obtain rfl : stage = .fresh := hc
  obtain ⟨room, hroom, hk⟩ := h.keeps
  refine ⟨⟨room, ?_, ?_⟩, List.forall_mem_cons.2 ⟨absurd rfl, h.drains⟩, h.names⟩
  · rw [List.countP_cons_of_pos rfl]
    exact Nat.succ_le_succ hroom
  · simpa only [holders_cons, holds_fresh, List.filterMap_cons, drains_fresh, reduceCtorEq,
      if_false, Nat.add_zero] using hk

/-- A call that has nothing can go. -/
theorem drop (h : s.Sound ((caller, c) :: calls) n) (hh : c.holds = none) (hd : c.drains = none) :
    s.Sound calls n := by
  obtain ⟨room, hroom, hk⟩ := h.keeps
  refine ⟨⟨room, ?_, ?_⟩, (List.forall_mem_cons.1 h.drains).2, h.names⟩
  · rw [List.countP_cons] at hroom
    omega
  · simpa only [holders_cons, hh, hd, reduceCtorEq, if_false, List.filterMap_cons, Nat.add_zero]
      using hk

/-- When its task ends, a call gives up the lock. -/
theorem release (h : s.Sound ((caller, { c with stage := .running }) :: calls) n) :
    Sound { s with lock := s.lock.release c.request.access } calls n := by
  obtain ⟨room, hroom, hk⟩ := h.keeps
  simp only [holders_cons, holds_running, List.filterMap_cons, drains_running, List.countP_cons,
    Option.some.injEq] at hk hroom
  exact ⟨⟨room, Nat.le_trans (Nat.add_le_add_left (Nat.le_add_right _ _) _) hroom,
    hk.release c.request.access rfl rfl⟩, (List.forall_mem_cons.1 h.drains).2, h.names⟩

/-- What is kept under a name makes room there. -/
theorem vacate (h : s.Sound calls n) (name : String) :
    ((s.take? name).getD s).Sound calls n ∧ name ∉ ((s.take? name).getD s).held.map (·.1) := by
  cases hlookup : s.held.lookup name with
  | none =>
    have htake : s.take? name = none := by simp only [take?, hlookup, Option.map_none]
    rw [htake]
    refine ⟨h, fun hmem => ?_⟩
    obtain ⟨e, he, rfl⟩ := List.mem_map.1 hmem
    simpa using List.lookup_eq_none_iff.1 hlookup e he
  | some held =>
    obtain ⟨before, after, hheld, hkeep⟩ := filter_of_lookup h.names hlookup
    obtain ⟨room, hroom, hk⟩ := h.keeps
    have hnames := h.names
    rw [hheld, List.map_append, List.map_cons] at hnames
    have hnodup := List.nodup_middle.1 hnames
    rw [List.nodup_cons, ← List.map_append] at hnodup
    simp only [take?, hlookup, Option.map_some, Option.getD_some, hkeep]
    refine ⟨⟨⟨room, hroom, ?_⟩, h.drains, hnodup.2⟩, hnodup.1⟩
    simp only [holders, hheld, List.countP_append, List.countP_cons] at hk ⊢
    cases held with
    | guard a =>
      refine hk.release a ?_ ?_ <;> cases a <;> simp <;> omega
    | gate k => simpa using hk

theorem act (h : s.Sound calls n) (a : Action) : (s.act a).2.Sound calls n := by
  cases a with
  | release name =>
    have hvacate := (h.vacate name).1
    simp only [SharedLock.act]
    cases htake : s.take? name with
    | none => exact h
    | some s' => rwa [htake] at hvacate
  | describe => exact h
  | describeGuard name =>
    simp only [SharedLock.act]
    split <;> exact h

theorem names_keep (h : s.Sound calls n) (name : String) (held : Held) :
    ((s.keep name held).held.map (·.1)).Nodup := by
  obtain ⟨hvacant, hnot⟩ := h.vacate name
  simp only [SharedLock.keep, List.map_append, List.map_singleton]
  exact (List.perm_append_singleton _ _).nodup_iff.2 (List.nodup_cons.2 ⟨hnot, hvacant.names⟩)

theorem keepGate (h : s.Sound calls n) (name : String) (k : Nat) :
    (s.keep name (.gate k)).Sound calls n := by
  obtain ⟨⟨room, hroom, hk⟩, hdrains, -⟩ := (h.vacate name).1
  refine ⟨⟨room, hroom, ?_⟩, hdrains, h.names_keep name _⟩
  simpa only [SharedLock.keep, holders_append, reduceCtorEq, if_false, Nat.add_zero] using hk

/-- The lock that was granted to a caller can be kept under its name. -/
theorem keepGuard (h : s.Sound ((caller, { c with stage := .running }) :: calls) n)
    (name : String) :
    (s.keep name (.guard c.request.access)).Sound calls n := by
  obtain ⟨⟨room, hroom, hk⟩, hdrains, -⟩ := (h.vacate name).1
  refine ⟨⟨room, Nat.le_trans ?_ hroom, ?_⟩, (List.forall_mem_cons.1 hdrains).2,
    h.names_keep name _⟩
  · rw [List.countP_cons]
    omega
  · simpa only [SharedLock.keep, holders_append, holders_cons, holds_running, List.filterMap_cons,
      drains_running, Held.guard.injEq, Option.some.injEq] using hk

theorem openGate (h : s.Sound calls n) (caller : Caller) : (s.openGate caller).Sound calls n := by
  obtain ⟨room, hroom, hk⟩ := h.keeps
  refine ⟨⟨room, hroom, ?_⟩, h.drains, h.names.sublist ((List.erase_sublist).map _)⟩
  rw [holders_openGate, holders_openGate]
  exact hk

/-- A call that may hold the lock does what it wants it for. -/
theorem proceed (h : s.Sound ((caller, { c with stage := .running }) :: calls) n) :
    (s.proceed caller c).state.Sound
      (((s.proceed caller c).rest.map (caller, ·)).toList ++ calls) n := by
  simp only [SharedLock.proceed]
  split
  next => exact h.keepGuard _
  next =>
    split
    next => exact h
    next => exact h.release

/-- A write that waits for the reads before goes on if they are over. -/
theorem drain (h : s.Sound ((caller, { c with stage := .draining w }) :: calls) n) :
    (s.drain caller c w).state.Sound
      (((s.drain caller c w).rest.map (caller, ·)).toList ++ calls) n := by
  have hwrite : c.request = .write := (List.forall_mem_cons.1 h.drains).1 (Option.some_ne_none w)
  have hdrains := (List.forall_mem_cons.1 h.drains).2
  obtain ⟨room, hroom, hk⟩ := h.keeps
  simp only [holders_cons, holds_draining, List.filterMap_cons, drains_draining, reduceCtorEq,
    if_false, Nat.add_zero] at hk
  simp only [SharedLock.drain]
  split
  next hw =>
    have hnext : s.Sound ((caller, { c with stage := .running }) :: calls) n := by
      refine ⟨⟨room, hroom, ?_⟩, List.forall_mem_cons.2 ⟨absurd rfl, hdrains⟩, h.names⟩
      simp only [holders_cons, holds_running, List.filterMap_cons, drains_running, hwrite,
        Request.access, reduceCtorEq, Option.some.injEq, if_false, if_true, Nat.add_zero]
      exact hk.drained hw
    exact hnext.proceed
  next w' hw =>
    refine ⟨⟨room, hroom, ?_⟩, List.forall_mem_cons.2 ⟨fun _ => hwrite, hdrains⟩, h.names⟩
    simp only [Option.map_some, Option.toList_some, List.singleton_append, holders_cons,
      holds_draining, List.filterMap_cons, drains_draining, reduceCtorEq, if_false, Nat.add_zero]
    exact hk.drain_on hw

/-- A call in line that has been admitted goes on. One that is out of time leaves. -/
theorem inLine (h : s.Sound ((caller, { c with stage := .queued t deadline }) :: calls) n)
    (hp : s.inLine now caller c t deadline = some p) :
    p.state.Sound ((p.rest.map (caller, ·)).toList ++ calls) n := by
  have hdrains := (List.forall_mem_cons.1 h.drains).2
  obtain ⟨room, hroom, hk⟩ := h.keeps
  simp only [holders_cons, holds_queued, List.filterMap_cons, drains_queued, reduceCtorEq,
    if_false, Nat.add_zero] at hk
  unfold SharedLock.inLine at hp
  rcases hreceive : s.lock.receive t c.request.access with _ | lock <;> rw [hreceive] at hp
  · rcases hread : c.request with limit | _ <;> rw [hread] at hp
    · rcases limit with _ | limit <;> rcases deadline with _ | deadline <;>
        simp only [reduceCtorEq] at hp
      split at hp
      next =>
        cases hp
        have hnext : Sound { s with lock := s.lock.withdraw t .read } calls n := by
          refine ⟨⟨room, Nat.le_trans ?_ hroom, hk.withdraw t .read⟩, hdrains, h.names⟩
          rw [List.countP_cons]
          exact Nat.add_le_add_left (Nat.le_add_right _ _) _
        exact hnext.openGate caller
      next => cases hp
    · cases hp
  · rcases haccess : c.request with limit | _ <;> rw [haccess] at hp hreceive
    · cases hp
      have hnext : Sound { s with lock } ((caller, { c with stage := .running }) :: calls) n := by
        refine ⟨⟨room, hroom, ?_⟩, List.forall_mem_cons.2 ⟨absurd rfl, hdrains⟩, h.names⟩
        simp only [holders_cons, holds_running, List.filterMap_cons, drains_running, haccess,
          Request.access, reduceCtorEq, Option.some.injEq, if_false, if_true, Nat.add_zero]
        exact hk.receiveRead hreceive
      exact hnext.proceed
    · cases hp
      have hnext : Sound { s with lock }
          ((caller, { c with stage := .draining .fresh }) :: calls) n := by
        refine ⟨⟨room, hroom, ?_⟩, List.forall_mem_cons.2 ⟨fun _ => haccess, hdrains⟩, h.names⟩
        simp only [holders_cons, holds_draining, List.filterMap_cons, drains_draining,
          reduceCtorEq, if_false, Nat.add_zero]
        exact hk.receiveWrite hreceive
      exact hnext.drain

/-- A call that comes joins the line. -/
theorem request (h : s.Sound ((caller, { c with stage := .fresh }) :: calls) n)
    (hn : n ≤ Saturating.ceiling) (hr : s.lock.request c.request.access = .ok (t, lock))
    (deadline : Option Nat) :
    Sound { s with lock } ((caller, { c with stage := .queued t deadline }) :: calls) n := by
  have hdrains := (List.forall_mem_cons.1 h.drains).2
  obtain ⟨room, hroom, hk⟩ := h.keeps
  have hcount : ∀ calls, (((caller, ⟨c.request, c.purpose, .fresh⟩) : Caller × Call) :: calls).countP
      (·.2.arrives) = calls.countP (·.2.arrives) + 1 := fun calls => List.countP_cons_of_pos rfl
  rw [hcount] at hroom
  simp only [holders_cons, holds_fresh, List.filterMap_cons, drains_fresh, reduceCtorEq,
    if_false, Nat.add_zero] at hk
  have hkeeps : ∃ room', room' + calls.countP (·.2.arrives) ≤ n ∧
      lock.Keeps (s.holders .read calls) (s.holders .write calls)
        (calls.filterMap (·.2.drains)) room' := by
    rcases haccess : c.request with limit | _ <;> rw [haccess] at hr
    · exact ⟨room + 1, by omega, hk.requestRead (by omega) hr⟩
    · cases hr
      exact ⟨room, by omega, hk.requestWrite⟩
  obtain ⟨room', hroom', hk'⟩ := hkeeps
  refine ⟨⟨room', ?_, ?_⟩, List.forall_mem_cons.2 ⟨absurd rfl, hdrains⟩, h.names⟩
  · rw [List.countP_cons]
    exact hroom'
  · simp only [holders_cons, holds_queued, List.filterMap_cons, drains_queued, reduceCtorEq,
      if_false, Nat.add_zero]
    exact hk'

/-- A call that has asked for the lock waits in line, or has it at once. -/
theorem join {request : Request} {purpose : Purpose}
    (h : s.Sound ((caller, ⟨request, purpose, .fresh⟩) :: calls) n) (hn : n ≤ Saturating.ceiling)
    {t : Nat} {lock : Lock} (hrequest : s.lock.request request.access = .ok (t, lock))
    {deadline : Option Nat}
    (hp : (SharedLock.inLine now { s with lock } caller ⟨request, purpose, .fresh⟩ t deadline).getD
      ⟨{ s with lock }, some ⟨request, purpose, .queued t deadline⟩, []⟩ = p) :
    p.state.Sound ((p.rest.map (caller, ·)).toList ++ calls) n := by
  have hqueued := h.request (c := ⟨request, purpose, .fresh⟩) hn hrequest deadline
  cases hp
  cases hline : SharedLock.inLine now { s with lock } caller ⟨request, purpose, .fresh⟩ t
      deadline with
  | some p => exact hqueued.inLine hline
  | none => exact hqueued

/-- Whatever a poll comes to, it keeps what the callers keep. -/
theorem poll (h : s.Sound ((caller, c) :: calls) n) (hn : n ≤ Saturating.ceiling)
    (hp : s.poll now caller c = some p) :
    p.state.Sound ((p.rest.map (caller, ·)).toList ++ calls) n := by
  obtain ⟨request, purpose, stage⟩ := c
  cases stage with
  | fresh =>
    -- the gate, if there is one, is put where it belongs, and then the call joins the line
    cases purpose with
    | hold =>
      simp only [SharedLock.poll] at hp
      split at hp
      next => cases hp; exact (h.drop rfl rfl).openGate caller
      next hrequest => exact h.join hn hrequest (Option.some.inj hp)
    | run =>
      have hkept := h.keepGate caller.name caller.number
      simp only [SharedLock.poll] at hp
      split at hp
      next => cases hp; exact (hkept.drop rfl rfl).openGate caller
      next hrequest => exact hkept.join hn hrequest (Option.some.inj hp)
  | queued t deadline => exact h.inLine hp
  | draining w =>
    simp only [SharedLock.poll] at hp
    split at hp
    next => cases hp
    next =>
      cases hp
      exact h.drain
  | running =>
    simp only [SharedLock.poll] at hp
    split at hp
    next => cases hp
    next =>
      cases hp
      exact h.release (c := ⟨request, purpose, .running⟩)

/-- A call can be withdrawn however far it is. -/
theorem withdraw (h : s.Sound ((caller, c) :: calls) n) : (s.withdraw caller c).Sound calls n := by
  obtain ⟨request, purpose, stage⟩ := c
  have hdrains := (List.forall_mem_cons.1 h.drains).2
  obtain ⟨room, hroom, hk⟩ := h.keeps
  have hroom' : room + calls.countP (·.2.arrives) ≤ n := by
    rw [List.countP_cons] at hroom
    omega
  cases stage with
  | fresh => exact (h.drop rfl rfl).openGate caller
  | queued t deadline =>
    simp only [holders_cons, holds_queued, List.filterMap_cons, drains_queued, reduceCtorEq,
      if_false, Nat.add_zero] at hk
    have hleft : Sound { s with lock := s.lock.withdraw t request.access } calls n :=
      ⟨⟨room, hroom', hk.withdraw t _⟩, hdrains, h.names⟩
    exact hleft.openGate caller
  | draining w =>
    simp only [holders_cons, holds_draining, List.filterMap_cons, drains_draining, reduceCtorEq,
      if_false, Nat.add_zero] at hk
    have hleft : Sound { s with lock := s.lock.releaseWrite } calls n :=
      ⟨⟨room, hroom', hk.releaseWrite rfl⟩, hdrains, h.names⟩
    exact hleft.openGate caller
  | running => exact (h.release (c := ⟨request, purpose, .running⟩)).openGate caller

end Sound

/-- What callers keep, unless more have come than can be counted. -/
theorem invariant : Simulation.Invariant (fun c : Call => c.stage = .fresh)
    fun (s : SharedLock) calls n => n ≤ Saturating.ceiling → s.Sound calls n where
  act _ a h hn := (h hn).act a
  call caller _ hc h hn :=
    ((h (Nat.le_of_succ_le hn)).arrive caller hc).perm (List.perm_append_singleton _ _)
  poll now hp h hn :=
    (((h hn).perm List.perm_middle.symm).poll hn hp).perm (List.perm_append_comm_assoc _ _ _)
  withdraw h hn := ((h hn).perm List.perm_middle.symm).withdraw
  work now hwork := by cases hwork

/-- Whatever callers do, of those who write there is at most one, and then nobody reads or has
    been admitted to read. -/
theorem exclusion {max : Nat} {s : Simulation SharedLock Call Event}
    (hs : Simulation.Reach (fun c : Call => c.stage = .fresh) (.start (new max)) s)
    (hcalls : s.nextCall ≤ Saturating.ceiling) :
    s.state.holders .write s.calls ≤ 1 ∧
      (s.state.holders .write s.calls = 1 → s.state.holders .read s.calls = 0 ∧
        s.state.lock.reads.granted = [] ∧ s.state.lock.readers.count = 0) := by
  have hsound := invariant.reach (Simulation.distinct_start _) (fun _ => sound_new max 0) hs hcalls
  obtain ⟨room, -, hk⟩ := hsound.keeps
  have hwriters := hk.writers
  have hle := Bool.toNat_le s.state.lock.writing
  refine ⟨by omega, fun hone => ?_⟩
  have hzero := hk.apart (by omega)
  have hreaders := hk.readers
  rw [hzero, eq_comm, Nat.add_eq_zero_iff, List.length_eq_zero_iff] at hreaders
  exact ⟨hreaders.2, hreaders.1, hzero⟩

/-- A write is asked for while a read holds the lock, and gets it when that is released. -/
theorem exclusion_read_then_write :
    let s₀ : Simulation SharedLock Call Event := .start (new 4)
    let s₁ := (s₀.move (.call "reader" ⟨.read none, .hold, .fresh⟩)).2
    let s₂ := (s₁.move (.call "writer" ⟨.write, .hold, .fresh⟩)).2
    let s := (s₂.move (.act (.release "reader"))).2.settle
    s₂.state.holders .read s₂.calls = 1 ∧ s₂.state.lock.writing = true ∧
      s.state.holders .write s.calls = 1 ∧ s.state.holders .read s.calls = 0 ∧
      s.state.lock.reads.granted = [] ∧ s.state.lock.readers.count = 0 := by
  intro s₀ s₁ s₂ s
  have hs : Simulation.Reach (fun c : Call => c.stage = .fresh) s₀ s := by
    have h₁ : Simulation.Reach (fun c : Call => c.stage = .fresh) s₀ s₁ :=
      Simulation.reach_move _ fun _ _ heq => by cases heq; rfl
    have h₂ : Simulation.Reach (fun c : Call => c.stage = .fresh) s₁ s₂ :=
      Simulation.reach_move _ fun _ _ heq => by cases heq; rfl
    have h₃ : Simulation.Reach (fun c : Call => c.stage = .fresh) s₂ s :=
      (Simulation.reach_move _ fun _ _ heq => by cases heq).trans (Simulation.reach_settle _)
    exact (h₁.trans h₂).trans h₃
  have hone : s.state.holders .write s.calls = 1 := by decide
  exact ⟨by decide, by decide, hone, (exclusion hs (by decide)).2 hone⟩

end SharedLock

end ConsensusCore
