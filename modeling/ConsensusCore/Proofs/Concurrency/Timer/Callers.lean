import ConsensusCore.Proofs.Concurrency.Simulation
import ConsensusCore.Proofs.Concurrency.Timer.Sleepers

/-!
# A timer among callers

In a simulation a wait that is over gives up its place at once, and its caller is told in the same
poll. This is one of the orders in which all can be done (`Timer.Mirrors`).

* `Timer.exists_run`: whatever callers do, and whenever, is a run of the timer, and each of them is
  told what has become of the wait.
-/

namespace ConsensusCore

namespace Timer

open Sleepers

/-- What a poll of a wait comes to that has begun. -/
theorem asleep_eq_some {t : Timer} {now number deadline : Nat} {caller : Caller}
    {p : Polled Timer Wait Event} (h : t.asleep now caller number deadline = some p) :
    number ∈ t.broken ∧ p = ⟨t.finish number, none, [.aborted caller]⟩ ∨
      deadline ≤ now ∧ p = ⟨t.finish number, none, [.elapsed caller]⟩ := by
  rw [asleep] at h
  split at h
  next hbroken =>
    cases h
    exact .inl ⟨hbroken, rfl⟩
  next =>
    split at h
    next hle =>
      cases h
      exact .inr ⟨hle, rfl⟩
    next => cases h

/-- The number of a wait that has begun, and when its time is over. -/
def Wait.place? : Wait → Option (Nat × Nat)
  | .fresh _ => none
  | .sleeping number deadline => some (number, deadline)

/-- What a caller is told has been done. -/
def Told (h : History) : Event → Prop
  | .elapsed caller => ∃ span number, Done h (.begin caller span (some number)) ∧
      Done h (.elapse number)
  | .aborted caller => ∃ span number, Done h (.begin caller span (some number)) ∧
      Done h (.notice number)
  | .failed caller error => error = .alreadyWaiting ∧ ∃ span, Done h (.begin caller span none)

/-- The wait of a caller has begun. -/
def Waits (h : History) (call : Caller × Wait) : Prop :=
  ∃ number deadline span, call.2 = .sleeping number deadline ∧
    Done h (.begin call.1 span (some number))

/-- What callers do with a timer has a history. -/
structure Mirrors (h : History) (c : Sleepers) (s : Simulation Timer Wait Event) : Prop where
  run : Run h c
  timer : c.timer = s.state
  leaving : c.leaving = []
  asleep : c.asleep = s.calls.filterMap (·.2.place?)
  begun : ∀ call ∈ s.calls, Waits h call
  clock : ∀ e ∈ h, e.1 ≤ s.moment
  told : ∀ e ∈ s.log, Told h e.2

variable {h : History} {c : Sleepers} {s s' : Simulation Timer Wait Event} {e : Nat × Deed}
  {d : Deed}

theorem done_tail (hdone : Done h d) : Done (e :: h) d := done_cons.2 (.inr hdone)

theorem Waits.cons {call : Caller × Wait} (hwaits : Waits h call) : Waits (e :: h) call := by
  obtain ⟨number, deadline, span, heq, hdone⟩ := hwaits
  exact ⟨number, deadline, span, heq, done_tail hdone⟩

theorem Told.cons {event : Event} (htold : Told h event) : Told (e :: h) event := by
  cases event with
  | elapsed caller | aborted caller =>
    obtain ⟨span, number, hbegun, hover⟩ := htold
    exact ⟨span, number, done_tail hbegun, done_tail hover⟩
  | failed caller error =>
    obtain ⟨rfl, span, hrefused⟩ := htold
    exact ⟨rfl, span, done_tail hrefused⟩

namespace Mirrors

variable (hm : Mirrors h c s)
include hm

theorem clock_cons (d : Deed) : ∀ e ∈ (s.moment, d) :: h, e.1 ≤ s.moment :=
  List.forall_mem_cons.2 ⟨Nat.le_refl _, hm.clock⟩

theorem act (a : Action) : ∃ h' c', Mirrors h' c' (s.act a).2 := by
  have hsame : (s.act a).2 = { s with state := c.timer.abort?.getD c.timer } := by
    rw [hm.timer]
    rfl
  rw [hsame]
  exact ⟨_, _, hm.run.step hm.clock .abort, rfl, hm.leaving, hm.asleep,
    fun e he => (hm.begun e he).cons, hm.clock_cons _, fun e he => (hm.told e he).cons⟩

/-- Later it is still so. -/
theorem wait (ms : Nat) : Mirrors h c { s with now := s.now + ms } :=
  ⟨hm.run, hm.timer, hm.leaving, hm.asleep, hm.begun,
    fun e he => Nat.le_trans (hm.clock e he) (Nat.mul_le_mul_right _ (Nat.le_add_right _ _)),
    hm.told⟩

theorem split {before after : List (Caller × Wait)} {caller : Caller} {number deadline : Nat}
    (hcalls : s.calls = before ++ (caller, .sleeping number deadline) :: after) :
    c.asleep = before.filterMap (·.2.place?) ++
      (number, deadline) :: after.filterMap (·.2.place?) := by
  rw [hm.asleep, hcalls, List.filterMap_append]
  rfl

theorem begun_rest {before after : List (Caller × Wait)} {call : Caller × Wait}
    (hcalls : s.calls = before ++ call :: after) : ∀ e ∈ before ++ after, Waits h e := fun e he =>
  hm.begun e (hcalls ▸ ((List.sublist_cons_self call after).append_left before).subset he)

/-- A wait that has begun is over, and its caller is told. -/
theorem ended {before after : List (Caller × Wait)} {caller : Caller} {number deadline : Nat}
    {p : Polled Timer Wait Event}
    (hcalls : s.calls = before ++ (caller, .sleeping number deadline) :: after)
    (hp : s.state.asleep s.moment caller number deadline = some p) :
    ∃ h' c', Mirrors h' c' { s with
      state := p.state
      calls := before ++ ((p.rest.map (caller, ·)).toList ++ after)
      log := s.log ++ p.events.map (s.now, ·) } := by
  have hsplit := hm.split hcalls
  obtain ⟨span, hbegun⟩ : ∃ span, Done h (.begin caller span (some number)) := by
    obtain ⟨_, _, span, heq, hdone⟩ :=
      hm.begun _ (hcalls ▸ List.mem_append_right _ List.mem_cons_self)
    cases heq
    exact ⟨span, hdone⟩
  rw [← hm.timer] at hp
  obtain ⟨d, event, hstep, rfl, htold⟩ : ∃ d event, Step s.moment c d { c with
      asleep := before.filterMap (·.2.place?) ++ after.filterMap (·.2.place?)
      leaving := number :: c.leaving } ∧
      p = ⟨c.timer.finish number, none, [event]⟩ ∧ Told ((s.moment, d) :: h) event := by
    rcases asleep_eq_some hp with ⟨hbroken, rfl⟩ | ⟨hle, rfl⟩
    · exact ⟨_, _, .notice hsplit hbroken, rfl, span, number, done_tail hbegun,
        done_cons.2 (.inl rfl)⟩
    · exact ⟨_, _, .elapse hsplit hle, rfl, span, number, done_tail hbegun,
        done_cons.2 (.inl rfl)⟩
  have hfinish :=
    (hm.run.step hm.clock hstep).step (hm.clock_cons d) (.finish (List.nil_append _).symm)
  refine ⟨_, _, hfinish, rfl, hm.leaving, List.filterMap_append.symm,
    fun e he => (hm.begun_rest hcalls e he).cons.cons,
    List.forall_mem_cons.2 ⟨Nat.le_refl _, hm.clock_cons d⟩, ?_⟩
  exact List.forall_mem_append.2
    ⟨fun e he => (hm.told e he).cons.cons, List.forall_mem_singleton.2 htold.cons⟩

theorem poll {caller : Caller} (hd : s.Distinct) (hpoll : s.poll caller = some s') :
    ∃ h' c', Mirrors h' c' s' := by
  obtain ⟨before, w, after, p, hcalls, hp, rfl⟩ := hd.poll hpoll
  obtain ⟨number, deadline, -, rfl, -⟩ :=
    hm.begun (caller, w) (hcalls ▸ List.mem_append_right _ List.mem_cons_self)
  exact hm.ended hcalls hp

theorem withdraw {name : String} (hd : s.Distinct) (hwithdraw : s.withdraw? name = some s') :
    ∃ h' c', Mirrors h' c' s' := by
  obtain ⟨before, caller, w, after, hcalls, rfl⟩ := hd.withdraw hwithdraw
  obtain ⟨number, deadline, -, rfl, -⟩ :=
    hm.begun (caller, w) (hcalls ▸ List.mem_append_right _ List.mem_cons_self)
  refine ⟨_, _, hm.run.step hm.clock (.drop (hm.split hcalls)), ?_, hm.leaving,
    List.filterMap_append.symm, fun e he => (hm.begun_rest hcalls e he).cons, hm.clock_cons _,
    fun e he => (hm.told e he).cons⟩
  rw [hm.timer]
  rfl

/-- Whoever is refused is told so. -/
theorem refuse (hd : s.Distinct) (name : String) (span : Duration) {error : PrimitiveError}
    (hbegin : s.state.begin? = .error error) :
    ∃ h' c', Mirrors h' c' (s.call name (.fresh span)).2 := by
  have herror : error = .alreadyWaiting := by
    rcases s.state.begin?_cases with ⟨n, -, heq⟩ | ⟨-, heq⟩ <;> cases heq.symm.trans hbegin
    rfl
  have hpoll : Primitive.poll s.moment ⟨name, s.nextCall⟩ (Wait.fresh span) s.state =
      some ⟨s.state, none, [Event.failed ⟨name, s.nextCall⟩ error]⟩ := by
    change Timer.poll _ _ _ _ = _
    rw [Timer.poll, hbegin]
  rw [hd.call_of_poll hpoll]
  refine ⟨_, _, hm.run.step hm.clock (.refuse ⟨name, s.nextCall⟩ span (hm.timer ▸ hbegin)),
    hm.timer, hm.leaving, ?_, ?_, hm.clock_cons _, ?_⟩
  · rw [hm.asleep, Option.map_none, Option.toList_none, List.append_nil]
  · rw [Option.map_none, Option.toList_none, List.append_nil]
    exact fun e he => (hm.begun e he).cons
  · refine List.forall_mem_append.2 ⟨fun e he => (hm.told e he).cons, ?_⟩
    exact List.forall_mem_singleton.2 ⟨herror, span, done_cons.2 (.inl rfl)⟩

/-- A wait that begins may be over in the same poll. -/
theorem begin (hd : s.Distinct) (name : String) (span : Duration) {number : Nat} {timer : Timer}
    (hbegin : s.state.begin? = .ok (number, timer)) :
    ∃ h' c', Mirrors h' c' (s.call name (.fresh span)).2 := by
  have hnext : Mirrors ((s.moment, .begin ⟨name, s.nextCall⟩ span (some number)) :: h)
      { c with timer, asleep := c.asleep ++ [(number, Moment.wake s.moment span)] }
      { s with
        state := timer
        calls := s.calls ++
          [(⟨name, s.nextCall⟩, .sleeping number (Moment.wake s.moment span))]
        nextCall := s.nextCall + 1 } := by
    refine ⟨hm.run.step hm.clock (.begin ⟨name, s.nextCall⟩ span (hm.timer ▸ hbegin)), rfl,
      hm.leaving, ?_, ?_, hm.clock_cons _, fun e he => (hm.told e he).cons⟩
    · rw [List.filterMap_append, ← hm.asleep]
      rfl
    · refine List.forall_mem_append.2 ⟨fun e he => (hm.begun e he).cons, ?_⟩
      exact List.forall_mem_singleton.2 ⟨_, _, span, rfl, done_cons.2 (.inl rfl)⟩
  have hpoll : Primitive.poll s.moment ⟨name, s.nextCall⟩ (Wait.fresh span) s.state =
      some ((timer.asleep s.moment ⟨name, s.nextCall⟩ number (Moment.wake s.moment span)).getD
        ⟨timer, some (.sleeping number (Moment.wake s.moment span)), []⟩) := by
    change Timer.poll _ _ _ _ = _
    rw [Timer.poll, hbegin]
  rw [hd.call_of_poll hpoll]
  cases hasleep :
      timer.asleep s.moment ⟨name, s.nextCall⟩ number (Moment.wake s.moment span) with
  | none => exact ⟨_, _, by simpa using hnext⟩
  | some p => simpa using hnext.ended rfl hasleep

theorem call (hd : s.Distinct) (name : String) (span : Duration) :
    ∃ h' c', Mirrors h' c' (s.call name (.fresh span)).2 := by
  cases hbegin : s.state.begin? with
  | error => exact hm.refuse hd name span hbegin
  | ok => exact hm.begin hd name span hbegin

end Mirrors

/-- Whatever callers do with a timer, and whenever, has a history. -/
theorem exists_run {s : Simulation Timer Wait Event}
    (hs : Simulation.Reach (∃ span, · = Wait.fresh span) (.start .new) s) :
    s.Distinct ∧ ∃ h c, Mirrors h c s := by
  induction hs with
  | refl =>
    refine ⟨Simulation.distinct_start _, [], .start, .start, rfl, rfl, rfl, ?_, ?_, ?_⟩ <;>
      exact fun _ he => absurd he List.not_mem_nil
  | tail _ hstep ih =>
    obtain ⟨hd, h, c, hm⟩ := ih
    refine ⟨hd.step hstep, ?_⟩
    cases hstep with
    | act a => exact hm.act a
    | call name hnew =>
      obtain ⟨span, rfl⟩ := hnew
      exact hm.call hd name span
    | withdraw hwithdraw => exact hm.withdraw hd hwithdraw
    | poll hpoll => exact hm.poll hd hpoll
    | work hwork => simp [Simulation.work, Primitive.work] at hwork
    | wait ms => exact ⟨h, c, hm.wait ms⟩

end Timer

end ConsensusCore
