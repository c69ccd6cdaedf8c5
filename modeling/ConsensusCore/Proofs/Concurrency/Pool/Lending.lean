import ConsensusCore.Proofs.Concurrency.Pool.Loans
import ConsensusCore.Proofs.Concurrency.Simulation

/-!
# Lending handlers

Callers get handlers from a pool, keep them as long as they like, and put back what they
hold; meanwhile handlers are added and removed. Between a caller's noticing that its time is
over and its leaving the line others may act (`Step.lapse`, `Step.leave`), just as between
its joining the line and its first look (`Step.enter`), and a handler that is given to it
there must not be lost.

A handler may be removed while it is on loan. If it is then added again before that loan is
over, there are two loans of it that the pool cannot tell apart. `Careful` forbids that.

* `Step.keeps`: what each step keeps, whatever is added, and what careful ones keep besides;
* `Lending.one_place`: careful callers find every handler in one place, and in no other.
-/

namespace ConsensusCore.Pool

/-- A pool, its callers, and what they hold. -/
structure Lending (η : Type) where
  sim : Simulation (Pool η) Call (Event η)
  /-- Who has got which handler and not put it back. -/
  held : List (Caller × η)
  /-- The handlers that have been added and not been removed since. -/
  members : List η
  /-- Who has found its time to be over and not left the line yet, and with which ticket. -/
  leaving : List (Caller × Nat)

/-- Where a handler is. -/
inductive Place where
  | idle
  | held (caller : Caller)
  /-- It has been given to a caller that has not taken it yet. -/
  | inFlight (caller : Caller)
deriving DecidableEq

namespace Lending

variable {η : Type} [DecidableEq η]

/-- An empty pool, which nobody has called. -/
def start : Lending η := ⟨.start .empty, [], [], []⟩

/-- Who waits, and with which ticket. -/
def waiters (s : Lending η) : List (Caller × Nat) :=
  s.sim.calls.flatMap (fun e => e.2.waits e.1) ++ s.leaving

/-- The places where a handler is. -/
def places (s : Lending η) (h : η) : List Place :=
  (s.sim.state.idle.filter (· = h)).map (fun _ => .idle) ++
    (s.held.filter (·.2 = h)).map (fun e => .held e.1) ++
    (s.sim.state.line.granted.filter (·.2 = h)).flatMap fun g =>
      (s.waiters.filter (·.2 = g.1)).map fun e => .inFlight e.1

def add (s : Lending η) (h : η) : Lending η :=
  { s with sim := (s.sim.act (.add h)).2, members := s.members.insert h }

def put (s : Lending η) (caller : Caller) (h : η) : Lending η :=
  { s with sim := (s.sim.act (.put h)).2, held := s.held.erase (caller, h) }

def remove (s : Lending η) (h : η) : Lending η :=
  { s with sim := (s.sim.act (.remove h)).2, members := s.members.filter (· ≠ h) }

/-- After calls have been polled: who has got a handler holds it. -/
def polled (s : Lending η) (sim : Simulation (Pool η) Call (Event η)) : Lending η :=
  { s with sim, held := s.held ++ (sim.log.drop s.sim.log.length).filterMap (·.2.handed) }

/-- The first call that waits under a name is withdrawn, if there is one. -/
def withdraw (s : Lending η) (name : String) : Lending η :=
  { s with sim := (s.sim.withdraw? name).getD s.sim }

/-- A caller has found nothing idle and joined the line. -/
def enter (s : Lending η) (name : String) (limit : Duration) : Lending η :=
  let (t, state) := s.sim.state.join
  let call : Call := ⟨limit, .queued t (Moment.after s.sim.moment limit)⟩
  { s with sim := { s.sim with
      state
      calls := s.sim.calls ++ [(⟨name, s.sim.nextCall⟩, call)]
      nextCall := s.sim.nextCall + 1 } }

/-- A caller has found its time to be over, and is about to leave the line. -/
def lapse (s : Lending η) (caller : Caller) (limit : Duration) (t : Nat) : Lending η :=
  { s with
    sim := { s.sim with calls := s.sim.calls.filter fun c => !(c.1 == caller) }.record
      [.failed caller (.handlerTimeout limit)]
    leaving := s.leaving ++ [(caller, t)] }

def leave (s : Lending η) (caller : Caller) (t : Nat) : Lending η :=
  { s with
    sim := { s.sim with state := s.sim.state.withdraw t }
    leaving := s.leaving.erase (caller, t) }

/-- What can happen next. A handler is only added if it `may` be. -/
inductive Step (may : Lending η → η → Prop) (s : Lending η) : Lending η → Prop
  | add {h : η} : may s h → Step may s (s.add h)
  | put {caller : Caller} {h : η} : (caller, h) ∈ s.held → Step may s (s.put caller h)
  | remove (h : η) : Step may s (s.remove h)
  | call (name : String) (limit : Duration) (drawn : Nat) :
    Step may s (s.polled (s.sim.call name ⟨limit, .fresh drawn⟩).2)
  | poll {caller : Caller} {sim : Simulation (Pool η) Call (Event η)} :
    s.sim.poll caller = some sim → Step may s (s.polled sim)
  | withdraw (name : String) : Step may s (s.withdraw name)
  | wait (ms : Nat) : Step may s { s with sim := { s.sim with now := s.sim.now + ms } }
  | enter (name : String) (limit : Duration) : s.sim.state.idle = [] → Step may s (s.enter name limit)
  | lapse {caller : Caller} {limit : Duration} {t deadline : Nat} :
    (caller, ⟨limit, .queued t deadline⟩) ∈ s.sim.calls → s.sim.state.receive t = none →
    deadline ≤ s.sim.moment → Step may s (s.lapse caller limit t)
  | leave {caller : Caller} {t : Nat} : (caller, t) ∈ s.leaving → Step may s (s.leave caller t)

/-- What can have happened after any number of steps. -/
abbrev Reach (may : Lending η → η → Prop) : Lending η → Lending η → Prop :=
  Relation.ReflTransGen (Step may)

/-- No handler may be added that somebody still has from before it was removed. -/
def Careful (s : Lending η) (h : η) : Prop :=
  h ∈ s.sim.state.lent s.held → h ∈ s.sim.state.busy

instance (s : Lending η) (h : η) : Decidable (s.Careful h) :=
  inferInstanceAs (Decidable (_ → _))

/-! ## What steps keep -/

/-- What every step keeps. -/
structure Orderly (s : Lending η) : Prop where
  distinct : s.sim.Distinct
  sound : s.sim.state.Sound s.waiters s.members

/-- What careful steps keep besides. -/
abbrev Exclusive (s : Lending η) : Prop := s.sim.state.Lends s.held

variable {s s' : Lending η} {may : Lending η → η → Prop} {caller : Caller} {h : η}
  {sim : Simulation (Pool η) Call (Event η)}

omit [DecidableEq η] in
theorem orderly_start : (start : Lending η).Orderly := ⟨Simulation.distinct_start _, sound_empty⟩

omit [DecidableEq η] in
theorem exclusive_start : (start : Lending η).Exclusive := lends_empty

/-- The places in the line of some calls among others. -/
theorem perm_waits (before calls after : List (Caller × Call)) (leaving : List (Caller × Nat)) :
    ((before ++ (calls ++ after)).flatMap (fun e => e.2.waits e.1) ++ leaving).Perm
      (calls.flatMap (fun e => e.2.waits e.1) ++
        ((before ++ after).flatMap (fun e => e.2.waits e.1) ++ leaving)) := by
  rw [← List.append_assoc (calls.flatMap _), ← List.flatMap_append]
  exact ((List.perm_append_comm_assoc _ _ _).flatMap_right _).append_right _

omit [DecidableEq η] in
theorem Orderly.sound_of_calls {before after : List (Caller × Call)} {c : Call} (hs : s.Orderly)
    (hcalls : s.sim.calls = before ++ (caller, c) :: after) :
    s.sim.state.Sound (c.waits caller ++
      ((before ++ after).flatMap (fun e => e.2.waits e.1) ++ s.leaving)) s.members := by
  have hperm := perm_waits before [(caller, c)] after s.leaving
  rw [List.flatMap_singleton, List.singleton_append, ← hcalls] at hperm
  exact hs.sound.congr hperm.symm fun _ => .rfl

/-- Polling one call keeps what is to be kept. -/
theorem Orderly.polled (hs : s.Orderly) (hpoll : s.sim.poll caller = some sim) :
    (s.polled sim).Orderly ∧ (s.Exclusive → (s.polled sim).Exclusive) := by
  have hdistinct := hs.distinct.after_poll hpoll
  obtain ⟨before, c, after, p, hcalls, hp, rfl⟩ := hs.distinct.poll hpoll
  have hsound := hs.sound_of_calls hcalls
  refine ⟨⟨hdistinct, ?_⟩, fun hl => ?_⟩
  · have hrest : ∀ rest : Option Call, (rest.map (caller, ·)).toList.flatMap
        (fun e : Caller × Call => e.2.waits e.1) = rest.toList.flatMap (·.waits caller) := by
      rintro (_ | c) <;> rfl
    have hperm := perm_waits before (p.rest.map (caller, ·)).toList after s.leaving
    rw [hrest] at hperm
    exact (hsound.poll hp).congr hperm fun _ => .rfl
  · have hlog : (s.sim.log ++ p.events.map (s.sim.now, ·)).drop s.sim.log.length =
        p.events.map (s.sim.now, ·) := List.drop_left
    have hheld := hl.poll hsound hp
    simp only [Exclusive, Lending.polled, hlog, List.filterMap_map]
    exact hheld

theorem Orderly.call (hs : s.Orderly) (name : String) (limit : Duration) (drawn : Nat) :
    (s.polled (s.sim.call name ⟨limit, .fresh drawn⟩).2).Orderly ∧
      (s.Exclusive → (s.polled (s.sim.call name ⟨limit, .fresh drawn⟩).2).Exclusive) := by
  obtain ⟨caller, hcaller, heq⟩ := s.sim.call_eq name ⟨limit, .fresh drawn⟩
  -- the call that is about to be polled has no place in the line yet
  let s₁ : Lending η := { s with sim := { s.sim with
    calls := s.sim.calls ++ [(caller, ⟨limit, .fresh drawn⟩)]
    nextCall := s.sim.nextCall + 1 } }
  have hs₁ : s₁.Orderly := by
    refine ⟨hs.distinct.append hcaller, ?_⟩
    have hwaiters : s₁.waiters = s.waiters := by
      simp only [waiters, s₁, List.flatMap_append, List.flatMap_singleton, Call.waits,
        List.append_nil]
    rw [hwaiters]
    exact hs.sound
  rcases heq with heq | hpoll
  · have hlog : s.sim.log.drop s.sim.log.length = [] := List.drop_length
    have hpolled : s.polled (s.sim.call name ⟨limit, .fresh drawn⟩).2 = s₁ := by
      simp only [Lending.polled, heq, hlog, List.filterMap_nil, List.append_nil, s₁]
    rw [hpolled]
    exact ⟨hs₁, id⟩
  · exact hs₁.polled hpoll

theorem Orderly.remove (hs : s.Orderly) (h : η) :
    (s.remove h).Orderly ∧ (s.Exclusive → (s.remove h).Exclusive) := by
  rcases hr : s.sim.state.remove? h with _ | p
  · have hstate : (s.sim.act (.remove h)).2 = s.sim := by
      simp only [Simulation.act, Primitive.act, Pool.act, hr]
    have hmember : h ∉ s.members := fun hmem =>
      ((hs.sound.has h).1 hmem).elim (remove?_eq_none hr).1 (remove?_eq_none hr).2
    have hfilter : s.members.filter (· ≠ h) = s.members := by
      refine List.filter_eq_self.2 fun h' hmem => decide_eq_true ?_
      rintro rfl
      exact hmember hmem
    have hsame : s.remove h = s := by rw [Lending.remove, hstate, hfilter]
    rw [hsame]
    exact ⟨hs, id⟩
  · have hstate : (s.sim.act (.remove h)).2 = { s.sim with state := p } := by
      simp only [Simulation.act, Primitive.act, Pool.act, hr]
    have hsim : s.remove h =
        { s with sim := { s.sim with state := p }, members := s.members.filter (· ≠ h) } := by
      rw [Lending.remove, hstate]
    rw [hsim]
    exact ⟨⟨⟨hs.distinct.nodup, hs.distinct.lt⟩, hs.sound.remove? hr⟩, fun hl => (hl.remove? hr).1⟩

theorem Orderly.withdraw (hs : s.Orderly) (name : String) :
    (s.withdraw name).Orderly ∧ (s.Exclusive → (s.withdraw name).Exclusive) := by
  rcases hw : s.sim.withdraw? name with _ | sim
  · rw [Lending.withdraw, hw]
    exact ⟨hs, id⟩
  · rw [Lending.withdraw, hw, Option.getD_some]
    obtain ⟨before, caller, c, after, hcalls, rfl⟩ := hs.distinct.withdraw hw
    have hsound := hs.sound_of_calls hcalls
    refine ⟨⟨hs.distinct.sublist ?_ rfl, hsound.drop⟩, fun hl => hl.drop hsound⟩
    rw [hcalls, List.map_append, List.map_append]
    exact (List.Sublist.refl _).append (List.sublist_cons_self _ _)

omit [DecidableEq η] in
/-- A caller that joins the line and has not looked yet waits as one that has. -/
theorem Orderly.enter (hs : s.Orderly) (name : String) (limit : Duration) :
    (s.enter name limit).Orderly ∧ (s.Exclusive → (s.enter name limit).Exclusive) := by
  have hnumber : (⟨name, s.sim.nextCall⟩ : Caller).number = s.sim.nextCall := rfl
  have hdistinct := hs.distinct.append
    (c := ⟨limit, .queued s.sim.state.join.1 (Moment.after s.sim.moment limit)⟩) hnumber
  refine ⟨⟨⟨hdistinct.nodup, hdistinct.lt⟩, ?_⟩, fun hl => hl.join⟩
  refine (hs.sound.join ⟨name, s.sim.nextCall⟩).congr ?_ fun _ => .rfl
  simp only [waiters, Lending.enter, List.flatMap_append, List.flatMap_singleton, Call.waits,
    List.append_assoc]
  exact List.perm_middle

omit [DecidableEq η] in
/-- Whoever is about to leave the line is in it still. -/
theorem Orderly.lapse {limit : Duration} {t deadline : Nat} (hs : s.Orderly)
    (hmem : (caller, ⟨limit, .queued t deadline⟩) ∈ s.sim.calls) :
    (s.lapse caller limit t).Orderly ∧ (s.Exclusive → (s.lapse caller limit t).Exclusive) := by
  obtain ⟨before, after, hcalls, hrest⟩ := hs.distinct.filter hmem
  refine ⟨⟨hs.distinct.sublist (List.filter_sublist.map _) rfl, ?_⟩, id⟩
  refine (hs.sound_of_calls hcalls).congr ?_ fun _ => .rfl
  simp only [waiters, Lending.lapse, Simulation.record, hrest, Call.waits, List.singleton_append]
  rw [← List.append_assoc]
  exact List.perm_append_singleton _ _

/-- What a step keeps: order always, and exclusiveness if what is added may be added. -/
theorem Step.keeps (h : Step may s s') (hs : s.Orderly) :
    s'.Orderly ∧ ((∀ h, may s h → s.Careful h) → s.Exclusive → s'.Exclusive) := by
  cases h with
  | add hmay =>
    exact ⟨⟨⟨hs.distinct.nodup, hs.distinct.lt⟩, hs.sound.add _⟩,
      fun hcareful hl => hl.add (hcareful _ hmay)⟩
  | put hheld =>
    exact ⟨⟨⟨hs.distinct.nodup, hs.distinct.lt⟩, hs.sound.put _⟩,
      fun _ hl => hl.put hs.sound hheld⟩
  | remove h => exact (hs.remove h).imp_right fun hl _ => hl
  | call name limit drawn => exact (hs.call name limit drawn).imp_right fun hl _ => hl
  | poll hpoll => exact (hs.polled hpoll).imp_right fun hl _ => hl
  | withdraw name => exact (hs.withdraw name).imp_right fun hl _ => hl
  | wait ms => exact ⟨⟨⟨hs.distinct.nodup, hs.distinct.lt⟩, hs.sound⟩, fun _ hl => hl⟩
  | enter name limit hidle => exact (hs.enter name limit).imp_right fun hl _ => hl
  | lapse hmem hr hdeadline => exact (hs.lapse hmem).imp_right fun hl _ => hl
  | leave hmem =>
    have hperm : s.waiters.Perm (_ :: _) :=
      ((List.perm_cons_erase hmem).append_left _).trans List.perm_middle
    have hsound := hs.sound.congr hperm.symm fun _ => .rfl
    exact ⟨⟨⟨hs.distinct.nodup, hs.distinct.lt⟩, hsound.withdraw⟩, fun _ hl => hl.withdraw hsound⟩

theorem Reach.keeps (h : Reach may s s') (hs : s.Orderly) :
    s'.Orderly ∧ ((∀ s h, may s h → s.Careful h) → s.Exclusive → s'.Exclusive) := by
  induction h with
  | refl => exact ⟨hs, fun _ hl => hl⟩
  | tail _ hstep ih =>
    obtain ⟨hs', hl'⟩ := hstep.keeps ih.1
    exact ⟨hs', fun hcareful hl => hl' (hcareful _) (ih.2 hcareful hl)⟩

/-! ## Where handlers are -/

/-- If no two have one key, only one is found under the key of one. -/
theorem filter_eq_singleton {α β : Type} [DecidableEq β] {f : α → β} {l : List α} {x : α}
    (hnodup : (l.map f).Nodup) (hx : x ∈ l) : (l.filter fun y => f y = f x) = [x] := by
  obtain ⟨before, after, rfl⟩ := List.append_of_mem hx
  rw [List.map_append, List.map_cons, List.nodup_middle, List.nodup_cons, ← List.map_append] at hnodup
  have hnot : ∀ y ∈ before ++ after, ¬f y = f x := fun y hy heq =>
    hnodup.1 (heq ▸ List.mem_map_of_mem hy)
  rw [List.filter_append, List.filter_cons_of_pos (by simp),
    List.filter_eq_nil_iff.2 fun y hy => by simpa using hnot y (List.mem_append_left _ hy),
    List.filter_eq_nil_iff.2 fun y hy => by simpa using hnot y (List.mem_append_right _ hy)]
  rfl

theorem filter_eq_nil {α β : Type} [DecidableEq β] {f : α → β} {l : List α} {b : β}
    (hb : b ∉ l.map f) : (l.filter fun y => f y = b) = [] :=
  List.filter_eq_nil_iff.2 fun _ hy => decide_eq_true_iff.not.2 fun heq =>
    hb (heq ▸ List.mem_map_of_mem hy)

theorem places_of_idle (hs : s.Orderly) (hl : s.Exclusive) (hh : h ∈ s.sim.state.idle) :
    s.places h = [.idle] := by
  have hlent := hl.home h hh
  have hidle : (s.sim.state.idle.map id).Nodup := by
    rw [List.map_id]
    exact (List.nodup_append.1 hs.sound.apart).1
  have hone := filter_eq_singleton hidle hh
  rw [lent, List.mem_append, not_or] at hlent
  dsimp only [id] at hone
  rw [places, hone, filter_eq_nil hlent.1, filter_eq_nil hlent.2]
  rfl

theorem places_of_held (hl : s.Exclusive) (hh : (caller, h) ∈ s.held) :
    s.places h = [.held caller] := by
  have hmem : h ∈ s.held.map (·.2) := List.mem_map_of_mem hh
  obtain ⟨hheld, -, hdisj⟩ := List.nodup_append.1 hl.once
  have hidle : h ∉ s.sim.state.idle.map id := by
    rw [List.map_id]
    exact fun hh => hl.home h hh (List.mem_append_left _ hmem)
  have hgranted : h ∉ s.sim.state.line.granted.map (·.2) := fun hh => hdisj h hmem h hh rfl
  have hnone := filter_eq_nil hidle
  dsimp only [id] at hnone
  rw [places, hnone, filter_eq_singleton hheld hh, filter_eq_nil hgranted]
  rfl

theorem places_of_granted {t : Nat} (hs : s.Orderly) (hl : s.Exclusive)
    (hh : (t, h) ∈ s.sim.state.line.granted) : ∃ caller, s.places h = [.inFlight caller] := by
  have hmem : h ∈ s.sim.state.line.granted.map (·.2) := List.mem_map_of_mem hh
  obtain ⟨-, hgranted, hdisj⟩ := List.nodup_append.1 hl.once
  have hidle : h ∉ s.sim.state.idle.map id := by
    rw [List.map_id]
    exact fun hh => hl.home h hh (List.mem_append_right _ hmem)
  have hheld : h ∉ s.held.map (·.2) := fun hh => hdisj h hh h hmem rfl
  -- whoever has been given something has a place in the line, and nobody else has that place
  have hwaits : t ∈ s.waiters.map (·.2) :=
    hs.sound.waits.mem_iff.1 (List.mem_append_right _ (List.mem_map_of_mem hh))
  obtain ⟨⟨caller, t'⟩, hwaiter, rfl⟩ := List.mem_map.1 hwaits
  have honly := filter_eq_singleton (hs.sound.waits.nodup_iff.1 hs.sound.line.nodup) hwaiter
  have hnone := filter_eq_nil hidle
  dsimp only [id] at hnone
  refine ⟨caller, ?_⟩
  rw [places, hnone, filter_eq_nil hheld, filter_eq_singleton hgranted hh]
  simp only [List.map_nil, List.nil_append, List.flatMap_singleton, honly, List.map_singleton]

/-- Whatever careful callers do: no handler is idle twice, or idle and busy, or held by two;
    the pool has those that have been added and not removed; and each of these is in one place,
    that is, idle, held by a caller or in flight to one, and busy in the last two cases. -/
theorem one_place (hs : Reach Careful start s) :
    s.sim.state.idle.Nodup ∧ s.sim.state.idle.Disjoint s.sim.state.busy ∧
      (s.held.map (·.2)).Nodup ∧
      (∀ h, h ∈ s.members ↔ h ∈ s.sim.state.idle ∨ h ∈ s.sim.state.busy) ∧
      ∀ h ∈ s.members, ∃ place, s.places h = [place] ∧ (h ∈ s.sim.state.busy ↔ place ≠ .idle) := by
  obtain ⟨hs, hl⟩ := hs.keeps orderly_start
  have hl := hl (fun _ _ => id) exclusive_start
  obtain ⟨hidle, -, hdisj⟩ := List.nodup_append.1 hs.sound.apart
  have hdisjoint : s.sim.state.idle.Disjoint s.sim.state.busy := fun h hh hbusy =>
    hdisj h hh h hbusy rfl
  refine ⟨hidle, hdisjoint, (List.nodup_append.1 hl.once).1, hs.sound.has, fun h hmem => ?_⟩
  rcases (hs.sound.has h).1 hmem with hh | hh
  · exact ⟨.idle, places_of_idle hs hl hh, fun hbusy => (hdisjoint hh hbusy).elim,
      fun hne => absurd rfl hne⟩
  · rcases List.mem_append.1 (hl.out h hh) with hlent | hlent
    · obtain ⟨⟨caller, h⟩, hheld, rfl⟩ := List.mem_map.1 hlent
      exact ⟨.held caller, places_of_held hl hheld, fun _ => Place.noConfusion, fun _ => hh⟩
    · obtain ⟨⟨t, h⟩, hgranted, rfl⟩ := List.mem_map.1 hlent
      obtain ⟨caller, hplace⟩ := places_of_granted hs hl hgranted
      exact ⟨.inFlight caller, hplace, fun _ => Place.noConfusion, fun _ => hh⟩

/-- Two wait, a handler is added and given to the first, which is withdrawn before it takes it:
    then the handler is on its way to the second. -/
theorem one_place_withdrawn :
    let s₀ : Lending Nat := start
    let s₁ := s₀.polled (s₀.sim.call "first" ⟨.ofMillis 10, .fresh 0⟩).2
    let s₂ := s₁.polled (s₁.sim.call "second" ⟨.ofMillis 10, .fresh 0⟩).2
    let s₃ := s₂.add 7
    let s := s₃.withdraw "first"
    s₃.places 7 = [.inFlight ⟨"first", 0⟩] ∧ s.places 7 = [.inFlight ⟨"second", 1⟩] ∧
      7 ∈ s.members ∧ s.sim.state.idle.Disjoint s.sim.state.busy ∧
      ∃ place, s.places 7 = [place] ∧ (7 ∈ s.sim.state.busy ↔ place ≠ .idle) := by
  intro s₀ s₁ s₂ s₃ s
  have hs : Reach Careful s₀ s := by
    have h₁ : Reach Careful s₀ s₁ := .single (.call "first" (.ofMillis 10) 0)
    have h₂ : Reach Careful s₀ s₂ := h₁.tail (.call "second" (.ofMillis 10) 0)
    have h₃ : Reach Careful s₀ s₃ := h₂.tail (.add (by decide))
    exact h₃.tail (.withdraw "first")
  have hplace := one_place hs
  exact ⟨by decide, by decide, by decide, hplace.2.1, hplace.2.2.2.2 7 (by decide)⟩

end Lending

end ConsensusCore.Pool
