import ConsensusCore.Proofs.Concurrency.Lock.Sharing

/-!
# Callers who share a lock

The callers of a lock do nothing but what those who share it can do: a call that waits in line
is a pending request, and what is kept under a name, as well as a call that runs its task or
waits for the reads before it, has a guard (`SharedLock.Shares`). A read that is out of time
leaves the line in the same step in which this is found.

* `SharedLock.shares`: whatever callers do, the lock is as some run of those who share it has
  left it, with their calls and guards;
* `SharedLock.at_rest`: so once no call waits, and nothing is kept, the lock is as it was at first.
-/

namespace ConsensusCore

open Lock

namespace Sharing

variable {x : Sharing} {max n m t : Nat} {a : Access} {l l' : Lock} {queued queued' : List (Nat × Access)}
  {guards guards' : List Access}

/-- A lock with pending requests and guards, as some run of those who share it has left it. There
    are `n` handles on it at most. -/
def Leaves (max : Nat) (l : Lock) (queued : List (Nat × Access)) (guards : List Access) (n : Nat) :
    Prop :=
  ∃ x, Reach (start max) x ∧ x.lock = l ∧ x.lapsed = [] ∧ x.pending.Perm queued ∧
    (x.guards.map (·.2)).Perm guards ∧ queued.length + guards.length ≤ n

namespace Leaves

theorem start (max : Nat) : Leaves max (.new max) [] [] 0 :=
  ⟨_, .refl, rfl, rfl, .refl _, .refl _, Nat.le_refl _⟩

theorem perm (h : Leaves max l queued guards n) (hq : queued'.Perm queued) (hg : guards'.Perm guards)
    (hn : n ≤ m) : Leaves max l queued' guards' m := by
  obtain ⟨x, hx, hlock, hlapsed, hpending, hguards, hle⟩ := h
  refine ⟨x, hx, hlock, hlapsed, hpending.trans hq.symm, hguards.trans hg.symm, ?_⟩
  rw [hq.length_eq, hg.length_eq]
  exact Nat.le_trans hle hn

theorem request (h : Leaves max l queued guards n) (hn : n < maxHandles)
    (hr : l.request a = .ok (t, l')) : Leaves max l' ((t, a) :: queued) guards (n + 1) := by
  obtain ⟨x, hx, rfl, hlapsed, hpending, hguards, hle⟩ := h
  have hhandles : x.handles < maxHandles := by
    have hlength := hpending.length_eq
    have hlength' := hguards.length_eq
    rw [List.length_map] at hlength'
    simp only [handles, requests, hlapsed, List.map_nil, List.append_nil]
    omega
  refine ⟨_, hx.tail (.request hhandles hr), rfl, hlapsed, ?_, hguards, ?_⟩
  · exact (List.perm_append_singleton _ _).trans (hpending.cons _)
  · rw [List.length_cons]
    omega

theorem enter (h : Leaves max l ((t, a) :: queued) guards n) (hr : l.receive t a = some l') :
    Leaves max l' queued (a :: guards) n := by
  obtain ⟨x, hx, rfl, hlapsed, hpending, hguards, hle⟩ := h
  have hmem : (t, a) ∈ x.pending := hpending.mem_iff.2 List.mem_cons_self
  refine ⟨_, hx.tail (.enter hmem hr), rfl, hlapsed, ?_, ?_, ?_⟩
  · exact ((List.perm_cons_erase hmem).symm.trans hpending).cons_inv
  · rw [put, List.map_append]
    exact (List.perm_append_singleton _ _).trans (hguards.cons _)
  · simp only [List.length_cons] at hle ⊢
    omega

theorem withdraw (h : Leaves max l ((t, a) :: queued) guards n) :
    Leaves max (l.withdraw t a) queued guards n := by
  obtain ⟨x, hx, rfl, hlapsed, hpending, hguards, hle⟩ := h
  have hmem : (t, a) ∈ x.pending := hpending.mem_iff.2 List.mem_cons_self
  refine ⟨_, hx.tail (.withdraw hmem), rfl, hlapsed, ?_, hguards, ?_⟩
  · exact ((List.perm_cons_erase hmem).symm.trans hpending).cons_inv
  · rw [List.length_cons] at hle
    omega

theorem release (h : Leaves max l queued (a :: guards) n) :
    Leaves max (l.release a) queued guards n := by
  obtain ⟨x, hx, rfl, hlapsed, hpending, hguards, hle⟩ := h
  obtain ⟨⟨t, a'⟩, hmem, heq⟩ := List.mem_map.1 (hguards.mem_iff.2 List.mem_cons_self)
  obtain rfl : a' = a := heq
  refine ⟨_, hx.tail (.release hmem), rfl, hlapsed, hpending, ?_, ?_⟩
  · exact (((List.perm_cons_erase hmem).symm.map (·.2)).trans hguards).cons_inv
  · rw [List.length_cons] at hle
    omega

end Leaves

end Sharing

/-! ## What callers have -/

namespace Lock

/-- The request for which a call waits in line. -/
def Call.queued? (c : Call) : Option (Nat × Access) :=
  match c.stage with
  | .queued t _ => some (t, c.request.access)
  | _ => none

/-- The access for which a call has a guard. -/
def Call.guard? (c : Call) : Option Access :=
  match c.stage with
  | .draining _ => some .write
  | .running => some c.request.access
  | _ => none

/-- The access for which a guard is kept. -/
def Held.guard? : Held → Option Access
  | .guard a => some a
  | .gate _ => none

end Lock

namespace SharedLock

/-- The requests of those who wait in line. -/
def queued (calls : List (Caller × Call)) : List (Nat × Access) := calls.filterMap (·.2.queued?)

/-- The accesses for which there are guards. -/
def guards (s : SharedLock) (calls : List (Caller × Call)) : List Access :=
  calls.filterMap (·.2.guard?) ++ s.held.filterMap (·.2.guard?)

/-- The lock, with its callers, is as some run of those who share it has left it. -/
def Shares (max : Nat) (s : SharedLock) (calls : List (Caller × Call)) (n : Nat) : Prop :=
  ∃ k, k + calls.countP (·.2.arrives) ≤ n ∧ Sharing.Leaves max s.lock (queued calls) (s.guards calls) k

variable {s s' : SharedLock} {caller : Caller} {c : Call} {calls calls' : List (Caller × Call)}
  {max n now t : Nat} {p : Polled SharedLock Call Event} {w : Barrier.Wait} {a : Access}
  {lock : Lock} {deadline : Option Nat}

theorem queued_cons_of_none (h : c.queued? = none) :
    queued ((caller, c) :: calls) = queued calls :=
  List.filterMap_cons_none h

theorem guards_cons_of_none (h : c.guard? = none) :
    s.guards ((caller, c) :: calls) = s.guards calls := by
  simp only [guards, List.filterMap_cons, h]

theorem guards_cons_of_some (h : c.guard? = some a) :
    s.guards ((caller, c) :: calls) = a :: s.guards calls := by
  simp only [guards, List.filterMap_cons, h, List.cons_append]

/-- A gate is not a guard. -/
theorem guards_openGate (calls : List (Caller × Call)) :
    ((s.openGate caller).guards calls).Perm (s.guards calls) := by
  refine List.Perm.append_left _ ?_
  by_cases hmem : gateOf caller ∈ s.held
  · have hperm := (List.perm_cons_erase hmem).filterMap (·.2.guard?)
    rw [List.filterMap_cons_none rfl] at hperm
    exact hperm.symm
  · simp only [openGate, List.erase_of_not_mem hmem]
    exact .refl _

namespace Shares

theorem start (max : Nat) : (new max).Shares max [] 0 :=
  ⟨0, Nat.le_refl _, .start max⟩

/-- Callers who have the same requests and guards share the lock as before. -/
theorem congr (h : s.Shares max calls n) (hlock : s'.lock = s.lock)
    (hq : (queued calls').Perm (queued calls)) (hg : (s'.guards calls').Perm (s.guards calls))
    (hc : calls'.countP (·.2.arrives) ≤ calls.countP (·.2.arrives)) : s'.Shares max calls' n := by
  obtain ⟨k, hk, hleaves⟩ := h
  exact ⟨k, Nat.le_trans (Nat.add_le_add_left hc k) hk, hlock ▸ hleaves.perm hq hg (Nat.le_refl k)⟩

theorem perm (h : s.Shares max calls n) (hp : calls'.Perm calls) : s.Shares max calls' n :=
  h.congr rfl (hp.filterMap _) ((hp.filterMap _).append_right _) (Nat.le_of_eq (hp.countP_eq _))

theorem arrive (h : s.Shares max calls n) (caller : Caller) (hc : c.stage = .fresh) :
    s.Shares max ((caller, c) :: calls) (n + 1) := by
  obtain ⟨request, purpose, stage⟩ := c
  obtain rfl : stage = .fresh := hc
  obtain ⟨k, hk, hleaves⟩ := h
  refine ⟨k, ?_, hleaves⟩
  rw [List.countP_cons_of_pos rfl]
  exact Nat.succ_le_succ hk

theorem openGate (h : s.Shares max calls n) (caller : Caller) : (s.openGate caller).Shares max calls n :=
  h.congr rfl (.refl _) (guards_openGate calls) (Nat.le_refl _)

/-- A call that has nothing can go. -/
theorem drop (h : s.Shares max ((caller, c) :: calls) n) (hq : c.queued? = none)
    (hg : c.guard? = none) : s.Shares max calls n := by
  refine h.congr rfl ?_ ?_ ?_
  · rw [queued_cons_of_none hq]
  · rw [guards_cons_of_none hg]
  · rw [List.countP_cons]
    exact Nat.le_add_right _ _

/-- A call that has a guard can give up the lock. -/
theorem release (h : s.Shares max ((caller, c) :: calls) n) (hq : c.queued? = none)
    (hg : c.guard? = some a) : Shares max { s with lock := s.lock.release a } calls n := by
  obtain ⟨k, hk, hleaves⟩ := h
  rw [queued_cons_of_none hq, guards_cons_of_some hg] at hleaves
  rw [List.countP_cons] at hk
  exact ⟨k, by omega, hleaves.release⟩

/-- What is kept under a name makes room there. -/
theorem vacate (h : s.Shares max calls n) (hnames : (s.held.map (·.1)).Nodup) (name : String) :
    ((s.take? name).getD s).Shares max calls n := by
  cases hlookup : s.held.lookup name with
  | none =>
    have htake : s.take? name = none := by simp only [take?, hlookup, Option.map_none]
    rwa [htake]
  | some held =>
    obtain ⟨before, after, hheld, hkeep⟩ := filter_of_lookup hnames hlookup
    simp only [take?, hlookup, Option.map_some, Option.getD_some, hkeep]
    have hperm : (s.held.filterMap (·.2.guard?)).Perm
        (((name, held) :: (before ++ after)).filterMap (·.2.guard?)) := by
      rw [hheld]
      exact List.perm_middle.filterMap _
    cases held with
    | guard a =>
      obtain ⟨k, hk, hleaves⟩ := h
      refine ⟨k, hk, (hleaves.perm (.refl _) ?_ (Nat.le_refl k)).release⟩
      exact (List.perm_middle.symm.trans (hperm.symm.append_left _))
    | gate k => exact h.congr rfl (.refl _) (hperm.symm.append_left _) (Nat.le_refl _)

theorem act (h : s.Shares max calls n) (hnames : (s.held.map (·.1)).Nodup) (b : Action) :
    (s.act b).2.Shares max calls n := by
  cases b with
  | release name =>
    have hvacate := h.vacate hnames name
    simp only [SharedLock.act]
    cases htake : s.take? name with
    | none => exact h
    | some s' => rwa [htake] at hvacate
  | describe => exact h
  | describeGuard name =>
    simp only [SharedLock.act]
    split <;> exact h

theorem keepGate (h : s.Shares max calls n) (hnames : (s.held.map (·.1)).Nodup) (name : String)
    (k : Nat) : (s.keep name (.gate k)).Shares max calls n := by
  refine (h.vacate hnames name).congr rfl (.refl _) (List.Perm.append_left _ ?_) (Nat.le_refl _)
  simp only [SharedLock.keep, List.filterMap_append]
  exact .of_eq (List.append_nil _)

/-- A guard that was granted to a caller can be kept under its name. -/
theorem keepGuard (h : s.Shares max ((caller, { c with stage := .running }) :: calls) n)
    (hnames : (s.held.map (·.1)).Nodup) (name : String) :
    (s.keep name (.guard c.request.access)).Shares max calls n := by
  -- the guard of the call is the one that is kept from now on
  refine (h.vacate hnames name).congr rfl ?_ ?_ ?_
  · rw [queued_cons_of_none rfl]
  · rw [guards_cons_of_some (a := c.request.access) rfl]
    simp only [guards, SharedLock.keep, List.filterMap_append, ← List.append_assoc]
    exact List.perm_append_singleton _ _
  · rw [List.countP_cons]
    exact Nat.le_add_right _ _

/-- A call that may hold the lock does what it wants it for. -/
theorem proceed (h : s.Shares max ((caller, { c with stage := .running }) :: calls) n)
    (hnames : (s.held.map (·.1)).Nodup) :
    (s.proceed caller c).state.Shares max
      (((s.proceed caller c).rest.map (caller, ·)).toList ++ calls) n := by
  simp only [SharedLock.proceed]
  split
  next => exact h.keepGuard hnames _
  next =>
    split
    next => exact h
    next => exact h.release rfl rfl

/-- A write has its guard while it waits for the reads before. -/
theorem drain (h : s.Shares max ((caller, { c with stage := .draining w }) :: calls) n)
    (hnames : (s.held.map (·.1)).Nodup) (hwrite : c.request = .write) :
    (s.drain caller c w).state.Shares max
      (((s.drain caller c w).rest.map (caller, ·)).toList ++ calls) n := by
  simp only [SharedLock.drain]
  split
  next =>
    refine Shares.proceed (h.congr rfl (.refl _) (.of_eq ?_) (Nat.le_refl _)) hnames
    rw [guards_cons_of_some (a := .write) (by rw [Call.guard?, hwrite]; rfl),
      guards_cons_of_some (a := .write) rfl]
  next => exact h

/-- A call in line that has been admitted gets its guard. One that is out of time leaves. -/
theorem inLine (h : s.Shares max ((caller, { c with stage := .queued t deadline }) :: calls) n)
    (hnames : (s.held.map (·.1)).Nodup) (hp : s.inLine now caller c t deadline = some p) :
    p.state.Shares max ((p.rest.map (caller, ·)).toList ++ calls) n := by
  obtain ⟨k, hk, hleaves⟩ := h
  have hline : Sharing.Leaves max s.lock ((t, c.request.access) :: queued calls) (s.guards calls) k :=
    hleaves
  unfold SharedLock.inLine at hp
  rcases hreceive : s.lock.receive t c.request.access with _ | lock <;> rw [hreceive] at hp
  · -- only a read with a limit can be out of time
    rcases hread : c.request with limit | _ <;> rw [hread] at hp hline
    · rcases limit with _ | limit <;> rcases deadline with _ | deadline <;>
        simp only [reduceCtorEq] at hp
      split at hp
      next =>
        cases hp
        have hleft : Shares max { s with lock := s.lock.withdraw t .read } calls n :=
          ⟨k, hk, hline.withdraw⟩
        exact hleft.openGate caller
      next => cases hp
    · cases hp
  · have hentered := hline.enter hreceive
    rcases haccess : c.request with limit | _ <;> rw [haccess] at hp hentered
    · cases hp
      have hnext : Shares max { s with lock } ((caller, { c with stage := .running }) :: calls) n := by
        refine ⟨k, hk, ?_⟩
        rw [guards_cons_of_some (a := .read) (by rw [Call.guard?, haccess]; rfl)]
        exact hentered
      exact hnext.proceed hnames
    · cases hp
      have hnext : Shares max { s with lock }
          ((caller, { c with stage := .draining .fresh }) :: calls) n := ⟨k, hk, hentered⟩
      exact hnext.drain hnames haccess

/-- A call that comes joins the line. -/
theorem request (h : s.Shares max ((caller, { c with stage := .fresh }) :: calls) n)
    (hn : n ≤ Sharing.maxHandles) (hr : s.lock.request c.request.access = .ok (t, lock))
    (deadline : Option Nat) :
    Shares max { s with lock } ((caller, { c with stage := .queued t deadline }) :: calls) n := by
  obtain ⟨k, hk, hleaves⟩ := h
  rw [List.countP_cons_of_pos rfl] at hk
  have hroom : k < Sharing.maxHandles := by omega
  have hjoined : Sharing.Leaves max lock ((t, c.request.access) :: queued calls) (s.guards calls) (k + 1) :=
    hleaves.request hroom hr
  refine ⟨k + 1, ?_, hjoined⟩
  rw [List.countP_cons_of_neg (by exact Bool.false_ne_true)]
  omega

/-- A call that has asked for the lock waits in line, or has it at once. -/
theorem join {request : Request} {purpose : Purpose}
    (h : s.Shares max ((caller, ⟨request, purpose, .fresh⟩) :: calls) n)
    (hnames : (s.held.map (·.1)).Nodup) (hn : n ≤ Sharing.maxHandles)
    (hr : s.lock.request request.access = .ok (t, lock))
    (hp : (SharedLock.inLine now { s with lock } caller ⟨request, purpose, .fresh⟩ t deadline).getD
      ⟨{ s with lock }, some ⟨request, purpose, .queued t deadline⟩, []⟩ = p) :
    p.state.Shares max ((p.rest.map (caller, ·)).toList ++ calls) n := by
  have hqueued := h.request (c := ⟨request, purpose, .fresh⟩) hn hr deadline
  cases hp
  cases hline : SharedLock.inLine now { s with lock } caller ⟨request, purpose, .fresh⟩ t
      deadline with
  | some p => exact hqueued.inLine hnames hline
  | none => exact hqueued

/-- Whatever a poll comes to is done by those who share the lock. -/
theorem poll (h : s.Shares max ((caller, c) :: calls) n) (hsound : s.Sound ((caller, c) :: calls) m)
    (hn : n ≤ Sharing.maxHandles) (hp : s.poll now caller c = some p) :
    p.state.Shares max ((p.rest.map (caller, ·)).toList ++ calls) n := by
  have hnames := hsound.names
  obtain ⟨request, purpose, stage⟩ := c
  cases stage with
  | fresh =>
    cases purpose with
    | hold =>
      simp only [SharedLock.poll] at hp
      split at hp
      next => cases hp; exact (h.drop rfl rfl).openGate caller
      next hrequest => exact h.join hnames hn hrequest (Option.some.inj hp)
    | run =>
      have hkept := h.keepGate hnames caller.name caller.number
      have hnames' := hsound.names_keep caller.name (.gate caller.number)
      simp only [SharedLock.poll] at hp
      split at hp
      next => cases hp; exact (hkept.drop rfl rfl).openGate caller
      next hrequest => exact hkept.join hnames' hn hrequest (Option.some.inj hp)
  | queued t deadline => exact h.inLine (c := ⟨request, purpose, .queued t deadline⟩) hnames hp
  | draining w =>
    have hwrite : request = .write := hsound.drains _ List.mem_cons_self (Option.some_ne_none w)
    simp only [SharedLock.poll] at hp
    split at hp
    next => cases hp
    next =>
      cases hp
      exact h.drain (c := ⟨request, purpose, .draining w⟩) hnames hwrite
  | running =>
    simp only [SharedLock.poll] at hp
    split at hp
    next => cases hp
    next =>
      cases hp
      exact h.release rfl rfl

/-- A call can be withdrawn however far it is. -/
theorem withdraw (h : s.Shares max ((caller, c) :: calls) n) :
    (s.withdraw caller c).Shares max calls n := by
  obtain ⟨request, purpose, stage⟩ := c
  cases stage with
  | fresh => exact (h.drop rfl rfl).openGate caller
  | queued t deadline =>
    obtain ⟨k, hk, hleaves⟩ := h
    have hleft : Shares max { s with lock := s.lock.withdraw t request.access } calls n :=
      ⟨k, hk, hleaves.withdraw⟩
    exact hleft.openGate caller
  | draining w => exact (h.release (a := .write) rfl rfl).openGate caller
  | running => exact (h.release (a := request.access) rfl rfl).openGate caller

end Shares

/-- What callers do is done by those who share the lock, unless more have come than can have a
    handle on it. -/
theorem shares_invariant (max : Nat) : Simulation.Invariant (fun c : Call => c.stage = .fresh)
    fun (s : SharedLock) calls n => n ≤ Sharing.maxHandles → s.Sound calls n ∧ s.Shares max calls n where
  act now a h hn := ⟨(h hn).1.act a, (h hn).2.act (h hn).1.names a⟩
  call caller _ hc h hn := by
    obtain ⟨hsound, hshares⟩ := h (Nat.le_of_succ_le hn)
    exact ⟨(hsound.arrive caller hc).perm (List.perm_append_singleton _ _),
      (hshares.arrive caller hc).perm (List.perm_append_singleton _ _)⟩
  poll now hp h hn := by
    obtain ⟨hsound, hshares⟩ := h hn
    have hsound' := hsound.perm List.perm_middle.symm
    have hceiling := Nat.le_trans hn Sharing.maxHandles_le
    exact ⟨(hsound'.poll hceiling hp).perm (List.perm_append_comm_assoc _ _ _),
      ((hshares.perm List.perm_middle.symm).poll hsound' hn hp).perm (List.perm_append_comm_assoc _ _ _)⟩
  withdraw h hn := by
    obtain ⟨hsound, hshares⟩ := h hn
    exact ⟨(hsound.perm List.perm_middle.symm).withdraw, (hshares.perm List.perm_middle.symm).withdraw⟩
  work now hwork := by cases hwork

/-- Whatever callers do, the lock is as some run of those who share it has left it: with the
    tickets of the calls that wait in line, and with the guards that are kept or that calls
    have. -/
theorem shares {max : Nat} {s : Simulation SharedLock Call Event}
    (hs : Simulation.Reach (fun c : Call => c.stage = .fresh) (.start (new max)) s)
    (hcalls : s.nextCall ≤ Sharing.maxHandles) :
    ∃ x, Sharing.Reach (.start max) x ∧ x.lock = s.state.lock ∧ x.lapsed = [] ∧
      x.pending.Perm (queued s.calls) ∧ (x.guards.map (·.2)).Perm (s.state.guards s.calls) := by
  have hstart : (new max).Sound [] 0 ∧ (new max).Shares max [] 0 := ⟨sound_new max 0, .start max⟩
  obtain ⟨-, k, -, x, hx, hlock, hlapsed, hpending, hguards, -⟩ :=
    (shares_invariant max).reach (Simulation.distinct_start _) (fun _ => hstart) hs hcalls
  exact ⟨x, hx, hlock, hlapsed, hpending, hguards⟩

/-- Once no call waits in line, and there is no guard, the lock is as it was at first, but for the
    next ticket and for how often its reads have been over. -/
theorem at_rest {max : Nat} {s : Simulation SharedLock Call Event}
    (hs : Simulation.Reach (fun c : Call => c.stage = .fresh) (.start (new max)) s)
    (hcalls : s.nextCall ≤ Sharing.maxHandles) (hqueued : queued s.calls = [])
    (hguards : s.state.guards s.calls = []) :
    s.state.lock = { Lock.new max with
      nextTicket := s.state.lock.nextTicket
      readers := ⟨0, s.state.lock.readers.openings⟩ } := by
  obtain ⟨x, hx, hlock, hlapsed, hpending, hheld⟩ := shares hs hcalls
  rw [hqueued] at hpending
  rw [hguards] at hheld
  obtain ⟨hserves, hmax⟩ := hx.serves
  rw [Sharing.requests, hpending.eq_nil, hlapsed, List.map_eq_nil_iff.1 hheld.eq_nil, hlock] at hserves
  rw [hlock] at hmax
  exact hmax ▸ hserves.eq_new

end SharedLock

end ConsensusCore
