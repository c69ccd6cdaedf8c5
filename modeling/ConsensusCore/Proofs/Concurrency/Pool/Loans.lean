import ConsensusCore.Concurrency.Pool.Callers
import ConsensusCore.Proofs.Concurrency.WaitingLine
import Mathlib.Data.List.Nodup

/-!
# Loans of a pool

A handler is on loan if a caller holds it, or has been given it and will find it (`lent`).
The pool knows a loan only by the handler, so that what its operations keep comes in two
parts.

* `Sound`: no handler is in the pool twice, and everyone in the line has one ticket. This is
  kept whatever callers do.
* `Lends`: no handler is on loan twice, none of those on loan is idle, and those that are
  busy are on loan. This is kept unless a handler is added that is still on loan from before
  it was removed (`Lends.add`).

The withdrawal of a call that has been given a handler is the same as its taking the handler
and putting it back (`withdraw_cases`).
-/

namespace ConsensusCore.Pool

variable {η : Type}

/-- The handlers on loan: those that callers hold, and those that have been given to somebody
    who has not taken them yet. -/
def lent (p : Pool η) (held : List (Caller × η)) : List η :=
  held.map (·.2) ++ p.line.granted.map (·.2)

/-- What a pool with these handlers keeps while these wait, with their tickets. -/
structure Sound (p : Pool η) (waiters : List (Caller × Nat)) (members : List η) : Prop where
  apart : (p.idle ++ p.busy).Nodup
  has : ∀ h, h ∈ members ↔ h ∈ p.idle ∨ h ∈ p.busy
  line : p.line.Issued p.nextTicket
  waits : p.line.tickets.Perm (waiters.map (·.2))

/-- What a pool keeps besides, while these handlers are held. -/
structure Lends (p : Pool η) (held : List (Caller × η)) : Prop where
  out : ∀ h ∈ p.busy, h ∈ p.lent held
  once : (p.lent held).Nodup
  home : ∀ h ∈ p.idle, h ∉ p.lent held

variable {p p' : Pool η} {waiters waiters' : List (Caller × Nat)} {held held' : List (Caller × η)}
  {members members' : List η} {caller : Caller} {h : η} {t : Nat}

theorem sound_empty : Sound (empty : Pool η) [] [] :=
  ⟨List.nodup_nil, fun _ => (or_self_iff).symm, WaitingLine.issued_empty _, .nil⟩

theorem lends_empty : Lends (empty : Pool η) [] :=
  ⟨fun _ hh => absurd hh List.not_mem_nil, List.nodup_nil, fun _ hh => absurd hh List.not_mem_nil⟩

theorem Sound.congr (hp : p.Sound waiters members) (hw : waiters'.Perm waiters)
    (hm : ∀ h, h ∈ members' ↔ h ∈ members) : p.Sound waiters' members' :=
  ⟨hp.apart, fun h => (hm h).trans (hp.has h), hp.line, hp.waits.trans (hw.map _).symm⟩

/-- Whether the pool lends depends only on what is idle, busy and on loan. -/
theorem Lends.congr (hp : p.Lends held) (hidle : ∀ h ∈ p'.idle, h ∈ p.idle)
    (hbusy : ∀ h ∈ p'.busy, h ∈ p.busy) (hlent : (p'.lent held').Perm (p.lent held)) :
    p'.Lends held' :=
  ⟨fun h hh => hlent.mem_iff.2 (hp.out h (hbusy h hh)), hlent.nodup_iff.2 hp.once,
    fun h hh hmem => hp.home h (hidle h hh) (hlent.mem_iff.1 hmem)⟩

theorem Lends.perm (hp : p.Lends held) (hheld : held'.Perm held) : p.Lends held' :=
  hp.congr (fun _ hh => hh) (fun _ hh => hh) ((hheld.map _).append_right _)

/-! ## The line -/

theorem Sound.join (hp : p.Sound waiters members) (caller : Caller) :
    p.join.2.Sound ((caller, p.join.1) :: waiters) members := by
  refine ⟨hp.apart, hp.has, hp.line.join, ?_⟩
  have htickets : p.join.2.line.tickets.Perm (p.nextTicket :: p.line.tickets) := by
    simp only [Pool.join, WaitingLine.join, WaitingLine.tickets, List.append_assoc,
      List.singleton_append]
    exact List.perm_middle
  exact htickets.trans (hp.waits.cons _)

theorem Lends.join (hp : p.Lends held) : p.join.2.Lends held := ⟨hp.out, hp.once, hp.home⟩

/-- Whoever takes what was given to it does not wait any more. -/
theorem Sound.receive (hp : p.Sound ((caller, t) :: waiters) members)
    (hr : p.receive t = some (h, p')) : p'.Sound waiters members := by
  obtain ⟨⟨h', line⟩, hline, heq⟩ := Option.map_eq_some_iff.1 hr
  cases heq
  have htickets := hp.line.tickets_receive hline
  exact ⟨hp.apart, hp.has, hp.line.without htickets, (htickets.symm.trans hp.waits).cons_inv⟩

/-- Whoever takes what was given to it holds it. -/
theorem Lends.receive (hp : p.Lends held) (hs : p.Sound waiters members)
    (hr : p.receive t = some (h, p')) (caller : Caller) : p'.Lends (held ++ [(caller, h)]) := by
  obtain ⟨⟨h', line⟩, hline, heq⟩ := Option.map_eq_some_iff.1 hr
  cases heq
  obtain ⟨-, hgranted⟩ := hs.line.perm_receive hline
  refine hp.congr (fun _ hh => hh) (fun _ hh => hh) ?_
  simp only [lent, List.map_append, List.map_singleton, List.append_assoc]
  exact ((hgranted.map (·.2)).append_left _).symm

/-! ## The handlers -/

variable [DecidableEq η]

/-- What is offered goes to the first in the line, or stays idle if nobody waits. -/
theorem offer_cases (p : Pool η) (h : η) :
    (∃ t line, p.line.serve h = some line ∧ line.granted = p.line.granted ++ [(t, h)] ∧
      p.offer h = { p with line, busy := p.busy.insert h }) ∨
    p.offer h = { p with idle := p.idle ++ [h] } := by
  rcases hserve : p.line.serve h with _ | line
  · exact .inr (by simp only [offer, hserve])
  · obtain ⟨t, -, hg⟩ := WaitingLine.waiting_serve hserve
    exact .inl ⟨t, line, rfl, hg, by simp only [offer, hserve]⟩

theorem Sound.offer (hp : p.Sound waiters members) (hidle : h ∉ p.idle) (hbusy : h ∉ p.busy) :
    (p.offer h).Sound waiters (h :: members) := by
  have hnew : h ∉ p.idle ++ p.busy := fun hmem => (List.mem_append.1 hmem).elim hidle hbusy
  have hnodup : (h :: (p.idle ++ p.busy)).Nodup := List.nodup_cons.2 ⟨hnew, hp.apart⟩
  rcases p.offer_cases h with ⟨t, line, hserve, -, heq⟩ | heq <;> rw [heq]
  · refine ⟨?_, fun h' => ?_, hp.line.serve hserve,
      (WaitingLine.perm_serve hserve).trans hp.waits⟩
    · dsimp only
      rw [List.insert_of_not_mem hbusy]
      exact List.nodup_middle.2 hnodup
    · rw [List.mem_cons, List.mem_insert_iff, hp.has h', or_left_comm]
  · refine ⟨?_, fun h' => ?_, hp.line, hp.waits⟩
    · rw [List.append_assoc]
      exact List.nodup_middle.2 hnodup
    · rw [List.mem_cons, List.mem_append, List.mem_singleton, hp.has h', or_comm, or_right_comm]

/-- What is offered to a pool must not be on loan. -/
theorem Lends.offer (hp : p.Lends held) (hidle : h ∉ p.idle) (hlent : h ∉ p.lent held) :
    (p.offer h).Lends held := by
  rcases p.offer_cases h with ⟨t, line, -, hg, heq⟩ | heq
  · have hperm : ((p.offer h).lent held).Perm (h :: p.lent held) := by
      rw [heq]
      simp only [lent, hg, List.map_append, List.map_singleton, ← List.append_assoc]
      exact List.perm_append_singleton _ _
    rw [heq] at hperm ⊢
    refine ⟨fun h' hh => hperm.mem_iff.2 (List.mem_cons.2 ?_),
      hperm.nodup_iff.2 (List.nodup_cons.2 ⟨hlent, hp.once⟩), fun h' hh hmem => ?_⟩
    · exact (List.mem_insert_iff.1 hh).imp_right (hp.out h')
    · rcases List.mem_cons.1 (hperm.mem_iff.1 hmem) with rfl | hmem
      · exact hidle hh
      · exact hp.home h' hh hmem
  · rw [heq]
    refine ⟨hp.out, hp.once, fun h' hh => ?_⟩
    rcases List.mem_append.1 hh with hh | hh
    · exact hp.home h' hh
    · rw [List.mem_singleton.1 hh]
      exact hlent

theorem Sound.add (hp : p.Sound waiters members) (h : η) :
    (p.add h).Sound waiters (members.insert h) := by
  simp only [Pool.add]
  split
  next hmem =>
    rw [List.insert_of_mem ((hp.has h).2 hmem.symm)]
    exact hp
  next hnot =>
    rw [List.insert_of_not_mem fun hmem => hnot ((hp.has h).1 hmem).symm]
    rw [not_or] at hnot
    exact hp.offer hnot.2 hnot.1

/-- What is added must not be on loan from before it was removed. -/
theorem Lends.add (hp : p.Lends held) (hfree : h ∈ p.lent held → h ∈ p.busy) :
    (p.add h).Lends held := by
  simp only [Pool.add]
  split
  next => exact hp
  next hnot =>
    rw [not_or] at hnot
    exact hp.offer hnot.2 fun hlent => hnot.1 (hfree hlent)

theorem Sound.take (hp : p.Sound waiters members) (hidle : h ∈ p.idle) :
    (p.take h).Sound waiters members := by
  obtain ⟨-, -, hdisj⟩ := List.nodup_append.1 hp.apart
  have hbusy : h ∉ p.busy := fun hmem => hdisj h hidle h hmem rfl
  have hperm : ((p.take h).idle ++ (p.take h).busy).Perm (p.idle ++ p.busy) := by
    simp only [Pool.take, List.insert_of_not_mem hbusy]
    exact List.perm_middle.trans ((List.perm_cons_erase hidle).symm.append_right _)
  refine ⟨hperm.nodup_iff.2 hp.apart, fun h' => ?_, hp.line, hp.waits⟩
  rw [hp.has h', ← List.mem_append, ← List.mem_append, hperm.mem_iff]

theorem Lends.take (hp : p.Lends held) (hs : p.Sound waiters members) (hidle : h ∈ p.idle)
    (caller : Caller) : (p.take h).Lends (held ++ [(caller, h)]) := by
  have hnodup := (List.nodup_append.1 hs.apart).1
  have hperm : ((p.take h).lent (held ++ [(caller, h)])).Perm (h :: p.lent held) := by
    simp only [Pool.take, lent, List.map_append, List.map_singleton, List.append_assoc]
    exact List.perm_middle
  refine ⟨fun h' hh => hperm.mem_iff.2 (List.mem_cons.2 ?_),
    hperm.nodup_iff.2 (List.nodup_cons.2 ⟨hp.home h hidle, hp.once⟩), fun h' hh hmem => ?_⟩
  · exact (List.mem_insert_iff.1 hh).imp_right (hp.out h')
  · obtain ⟨hne, hmem'⟩ := hnodup.mem_erase_iff.1 hh
    exact hp.home h' hmem' ((List.mem_cons.1 (hperm.mem_iff.1 hmem)).resolve_left hne)

theorem remove?_cases (hr : p.remove? h = some p') :
    (h ∈ p.busy ∧ p' = { p with busy := p.busy.erase h }) ∨
      (h ∈ p.idle ∧ p' = { p with idle := p.idle.erase h }) := by
  simp only [remove?] at hr
  split at hr
  next hbusy => exact .inl ⟨hbusy, (Option.some.inj hr).symm⟩
  next =>
    split at hr
    next hidle => exact .inr ⟨hidle, (Option.some.inj hr).symm⟩
    next => cases hr

theorem remove?_eq_none (hr : p.remove? h = none) : h ∉ p.idle ∧ h ∉ p.busy := by
  simp only [remove?] at hr
  split at hr
  next => cases hr
  next hbusy =>
    split at hr
    next => cases hr
    next hidle => exact ⟨hidle, hbusy⟩

/-- What has been removed is neither idle nor busy. -/
theorem Sound.gone (hp : p.Sound waiters members) (hr : p.remove? h = some p') :
    h ∉ p'.idle ∧ h ∉ p'.busy := by
  obtain ⟨hidle, hbusy, hdisj⟩ := List.nodup_append.1 hp.apart
  rcases remove?_cases hr with ⟨hmem, rfl⟩ | ⟨hmem, rfl⟩
  · exact ⟨fun hh => hdisj h hh h hmem rfl, hbusy.not_mem_erase⟩
  · exact ⟨hidle.not_mem_erase, fun hh => hdisj h hmem h hh rfl⟩

theorem Sound.remove? (hp : p.Sound waiters members) (hr : p.remove? h = some p') :
    p'.Sound waiters (members.filter (· ≠ h)) := by
  obtain ⟨hidle, hbusy⟩ := hp.gone hr
  have hrest : ∀ h', h' ≠ h → (h' ∈ p'.idle ∨ h' ∈ p'.busy ↔ h' ∈ p.idle ∨ h' ∈ p.busy) := by
    intro h' hne
    rcases remove?_cases hr with ⟨-, rfl⟩ | ⟨-, rfl⟩
    · exact or_congr_right (List.mem_erase_of_ne hne)
    · exact or_congr_left (List.mem_erase_of_ne hne)
  have hhas : ∀ h', h' ∈ members.filter (· ≠ h) ↔ h' ∈ p'.idle ∨ h' ∈ p'.busy := by
    intro h'
    rw [List.mem_filter, decide_eq_true_iff, hp.has h']
    by_cases hne : h' = h
    · subst hne
      exact ⟨fun hh => absurd rfl hh.2, fun hh => (hh.elim hidle hbusy).elim⟩
    · rw [hrest h' hne, and_iff_left hne]
  rcases remove?_cases hr with ⟨-, rfl⟩ | ⟨-, rfl⟩
  · exact ⟨hp.apart.sublist (List.erase_sublist.append_left _), hhas, hp.line, hp.waits⟩
  · exact ⟨hp.apart.sublist (List.erase_sublist.append_right _), hhas, hp.line, hp.waits⟩

theorem Lends.remove? (hp : p.Lends held) (hr : p.remove? h = some p') :
    p'.Lends held ∧ p'.lent held = p.lent held := by
  rcases remove?_cases hr with ⟨-, rfl⟩ | ⟨-, rfl⟩
  · exact ⟨hp.congr (fun _ hh => hh) (fun _ hh => List.mem_of_mem_erase hh) .rfl, rfl⟩
  · exact ⟨hp.congr (fun _ hh => List.mem_of_mem_erase hh) (fun _ hh => hh) .rfl, rfl⟩

/-- Whoever holds a handler that is not busy can give it up. -/
theorem Lends.surrender (hp : p.Lends held) (hheld : (caller, h) ∈ held) (hbusy : h ∉ p.busy) :
    p.Lends (held.erase (caller, h)) ∧ h ∉ p.lent (held.erase (caller, h)) := by
  have hperm : (p.lent held).Perm (h :: p.lent (held.erase (caller, h))) :=
    ((List.perm_cons_erase hheld).map (·.2)).append_right _
  obtain ⟨hnot, honce⟩ := List.nodup_cons.1 (hperm.nodup_iff.1 hp.once)
  refine ⟨⟨fun h' hh => ?_, honce, fun h' hh hmem => ?_⟩, hnot⟩
  · refine (List.mem_cons.1 (hperm.mem_iff.1 (hp.out h' hh))).resolve_left ?_
    rintro rfl
    exact hbusy hh
  · exact hp.home h' hh (hperm.mem_iff.2 (List.mem_cons_of_mem _ hmem))

theorem put_of_not_mem (hbusy : h ∉ p.busy) : p.put h = (false, p) := by
  simp only [Pool.put, put?, if_neg hbusy]

/-- What is put back is taken out and offered, if it is busy. -/
theorem put_cases (p : Pool η) (h : η) :
    (h ∉ p.busy ∧ p.put h = (false, p)) ∨
      ∃ p', h ∈ p.busy ∧ p.remove? h = some p' ∧ p.put h = (true, p'.offer h) := by
  by_cases hbusy : h ∈ p.busy
  · refine .inr ⟨_, hbusy, if_pos hbusy, ?_⟩
    simp only [Pool.put, put?, if_pos hbusy]
  · exact .inl ⟨hbusy, put_of_not_mem hbusy⟩

theorem Sound.put (hp : p.Sound waiters members) (h : η) : (p.put h).2.Sound waiters members := by
  rcases p.put_cases h with ⟨-, heq⟩ | ⟨p', hbusy, hr, heq⟩ <;> rw [heq]
  · exact hp
  · obtain ⟨hidle, hnot⟩ := hp.gone hr
    refine ((hp.remove? hr).offer hidle hnot).congr .rfl fun h' => ?_
    by_cases heq' : h' = h
    · subst heq'
      simp [(hp.has h').2 (.inr hbusy)]
    · simp [heq']

/-- Whoever puts a handler back does not hold it any more, whether it is accepted or not. -/
theorem Lends.put (hp : p.Lends held) (hs : p.Sound waiters members) (hheld : (caller, h) ∈ held) :
    (p.put h).2.Lends (held.erase (caller, h)) := by
  rcases p.put_cases h with ⟨hbusy, heq⟩ | ⟨p', -, hr, heq⟩ <;> rw [heq]
  · exact (hp.surrender hheld hbusy).1
  · obtain ⟨hidle, hbusy⟩ := hs.gone hr
    obtain ⟨hlends, hlent⟩ := (hp.remove? hr).1.surrender hheld hbusy
    exact hlends.offer hidle hlent

/-! ## Calls -/

/-- A withdrawal goes out of the line, or takes what has been given and puts it back. -/
theorem withdraw_cases (hp : p.Sound ((caller, t) :: waiters) members) :
    (∃ line, p.line.leave t = some line ∧ p.withdraw t = { p with line }) ∨
      ∃ h p', p.line.leave t = none ∧ p.receive t = some (h, p') ∧
        p.withdraw t = (p'.put h).2 := by
  rcases hleave : p.line.leave t with _ | line
  · have hmem : t ∈ p.line.tickets := hp.waits.mem_iff.2 List.mem_cons_self
    obtain ⟨h, line, hr⟩ := WaitingLine.receive_of_leave hmem hleave
    have hreceive : p.receive t = some (h, { p with line }) := by
      simp only [Pool.receive, hr, Option.map_some]
    refine .inr ⟨h, _, rfl, hreceive, ?_⟩
    simp only [Pool.withdraw, hleave, hreceive, Pool.put]
    split <;> simp only [*, Option.getD_some, Option.getD_none]
  · exact .inl ⟨line, rfl, by simp only [Pool.withdraw, hleave]⟩

theorem Sound.withdraw (hp : p.Sound ((caller, t) :: waiters) members) :
    (p.withdraw t).Sound waiters members := by
  rcases withdraw_cases hp with ⟨line, hleave, heq⟩ | ⟨h, p', -, hreceive, heq⟩ <;> rw [heq]
  · have htickets := WaitingLine.tickets_leave hleave
    exact ⟨hp.apart, hp.has, hp.line.without htickets, (htickets.symm.trans hp.waits).cons_inv⟩
  · exact (hp.receive hreceive).put h

theorem Lends.withdraw (hp : p.Lends held) (hs : p.Sound ((caller, t) :: waiters) members) :
    (p.withdraw t).Lends held := by
  rcases withdraw_cases hs with ⟨line, hleave, heq⟩ | ⟨h, p', -, hreceive, heq⟩ <;> rw [heq]
  · refine hp.congr (fun _ hh => hh) (fun _ hh => hh) ?_
    rw [lent, lent, (WaitingLine.perm_leave hleave).2]
  · have hback := (List.perm_append_singleton (caller, h) held).erase (caller, h)
    rw [List.erase_cons_head] at hback
    exact ((hp.receive hs hreceive caller).put (hs.receive hreceive)
      (List.mem_append_right _ (List.mem_singleton.2 rfl))).perm hback.symm

/-- The place of a call in the line. -/
def Call.waits (c : Call) (caller : Caller) : List (Caller × Nat) :=
  match c.stage with
  | .fresh _ => []
  | .queued t _ => [(caller, t)]

/-- What a caller gets. -/
def Event.handed : Event η → Option (Caller × η)
  | .got caller h => some (caller, h)
  | .failed _ _ => none

variable {now deadline : Nat} {limit : Duration} {c : Call} {q : Polled (Pool η) Call (Event η)}

theorem inLine_cases (hq : p.inLine now caller limit t deadline = some q) :
    (∃ h p', p.receive t = some (h, p') ∧ q = ⟨p', none, [.got caller h]⟩) ∨
      (p.receive t = none ∧ deadline ≤ now ∧
        q = ⟨p.withdraw t, none, [.failed caller (.handlerTimeout limit)]⟩) := by
  simp only [Pool.inLine] at hq
  split at hq
  next h p' hr => exact .inl ⟨h, p', hr, (Option.some.inj hq).symm⟩
  next hr =>
    split at hq
    next hover => exact .inr ⟨hr, hover, (Option.some.inj hq).symm⟩
    next => cases hq

/-- A new call takes an idle handler or joins the line. A call in line gets a handler or is out
    of time. -/
theorem poll_cases (hq : p.poll now caller c = some q) :
    (c.waits caller = [] ∧ ∃ h ∈ p.idle, q = ⟨p.take h, none, [.got caller h]⟩) ∨
      (c.waits caller = [] ∧ ∃ deadline,
        (p.join.2.inLine now caller c.limit p.join.1 deadline = some q ∨
          q = ⟨p.join.2, some { c with stage := .queued p.join.1 deadline }, []⟩)) ∨
      ∃ t deadline, c.waits caller = [(caller, t)] ∧
        p.inLine now caller c.limit t deadline = some q := by
  obtain ⟨limit, drawn | ⟨t, deadline⟩⟩ := c
  · simp only [Pool.poll] at hq
    split at hq
    next h hidle =>
      exact .inl ⟨rfl, h, List.mem_of_getElem? hidle, (Option.some.inj hq).symm⟩
    next =>
      refine .inr (.inl ⟨rfl, Moment.after now limit, ?_⟩)
      rcases hline : p.join.2.inLine now caller limit p.join.1 (Moment.after now limit) with _ | q'
      · rw [hline, Option.getD_none] at hq
        exact .inr (Option.some.inj hq).symm
      · rw [hline, Option.getD_some] at hq
        exact .inl (hline ▸ hq)
  · exact .inr (.inr ⟨t, deadline, rfl, hq⟩)

theorem Sound.inLine (hp : p.Sound ((caller, t) :: waiters) members)
    (hq : p.inLine now caller limit t deadline = some q) :
    q.rest = none ∧ q.state.Sound waiters members := by
  rcases inLine_cases hq with ⟨h, p', hr, rfl⟩ | ⟨-, -, rfl⟩
  · exact ⟨rfl, hp.receive hr⟩
  · exact ⟨rfl, hp.withdraw⟩

theorem Lends.inLine (hp : p.Lends held) (hs : p.Sound ((caller, t) :: waiters) members)
    (hq : p.inLine now caller limit t deadline = some q) :
    q.state.Lends (held ++ q.events.filterMap Event.handed) := by
  rcases inLine_cases hq with ⟨h, p', hr, rfl⟩ | ⟨-, -, rfl⟩
  · exact hp.receive hs hr caller
  · exact (hp.withdraw hs).perm (List.Perm.of_eq (List.append_nil _))

theorem Sound.poll (hp : p.Sound (c.waits caller ++ waiters) members)
    (hq : p.poll now caller c = some q) :
    q.state.Sound (q.rest.toList.flatMap (·.waits caller) ++ waiters) members := by
  rcases poll_cases hq with ⟨hc, h, hidle, rfl⟩ | ⟨hc, deadline, hline | rfl⟩ |
    ⟨t, deadline, hc, hline⟩ <;> rw [hc] at hp
  · exact hp.take hidle
  · obtain ⟨hrest, hs⟩ := (hp.join caller).inLine hline
    rw [hrest]
    exact hs
  · exact hp.join caller
  · obtain ⟨hrest, hs⟩ := hp.inLine hline
    rw [hrest]
    exact hs

/-- Whoever gets a handler from a poll holds it. -/
theorem Lends.poll (hp : p.Lends held) (hs : p.Sound (c.waits caller ++ waiters) members)
    (hq : p.poll now caller c = some q) :
    q.state.Lends (held ++ q.events.filterMap Event.handed) := by
  rcases poll_cases hq with ⟨hc, h, hidle, rfl⟩ | ⟨hc, deadline, hline | rfl⟩ |
    ⟨t, deadline, hc, hline⟩ <;> rw [hc] at hs
  · exact hp.take hs hidle caller
  · exact hp.join.inLine (hs.join caller) hline
  · exact hp.join.perm (List.Perm.of_eq (List.append_nil _))
  · exact hp.inLine hs hline

theorem Sound.drop (hp : p.Sound (c.waits caller ++ waiters) members) :
    (p.drop c).Sound waiters members := by
  obtain ⟨limit, drawn | ⟨t, deadline⟩⟩ := c
  · exact hp
  · exact hp.withdraw

theorem Lends.drop (hp : p.Lends held) (hs : p.Sound (c.waits caller ++ waiters) members) :
    (p.drop c).Lends held := by
  obtain ⟨limit, drawn | ⟨t, deadline⟩⟩ := c
  · exact hp
  · exact hp.withdraw hs

end ConsensusCore.Pool
