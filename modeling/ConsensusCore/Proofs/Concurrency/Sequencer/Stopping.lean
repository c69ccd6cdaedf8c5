import ConsensusCore.Proofs.Concurrency.Sequencer.Crew
import ConsensusCore.Proofs.Concurrency.Simulation
import Mathlib.Algebra.BigOperators.Group.List.Basic
import Mathlib.Algebra.Ring.Nat

/-!
# Stopping a sequencer

Anybody can stop a sequencer, at any moment, and then waits until nothing is being worked on;
after that the sequencer is emptied, and can be told to start anew. Meanwhile one caller at a
time drives it (`May`), who may go before the end. All this is done in any order (`Run`).

* `Managed.follows`: whatever is done comes to one turn of the sequencer;
* `Managed.finishes`: nothing keeps whoever drives a stopped sequencer from coming to the end;
* `stops_and_resets`: what stopping a sequencer, and starting it anew, comes to.
-/

namespace ConsensusCore

namespace DrivenSequencer

open Sequencer

/-- A sequencer with those who drive it, put tasks in or stop it. -/
abbrev Driving := Simulation DrivenSequencer Call Event

/-- Somebody drives the sequencer, and nobody else does. -/
def Drives (calls : List (Caller × Call)) (driver : Option Caller) : Prop :=
  ∀ c, (c, .drive) ∈ calls ↔ driver = some c

/-- The calls that are made: a sequencer is driven by one caller at a time. -/
def May (s : Driving) : Call → Prop
  | .drive => ∀ c, (c, .drive) ∉ s.calls
  | .stop _ => True
  | .stopping _ => False

/-- What is done next. -/
abbrev Next (s s' : Driving) : Prop := Simulation.Step (May s) s s'

/-- What can have been done after any number of steps. -/
abbrev Run : Driving → Driving → Prop := Relation.ReflTransGen Next

/-- What is told in a step. -/
def news (s s' : Driving) : List Event := (s'.log.drop s.log.length).map (·.2)

variable {s s' : Driving} {driver driver' : Option Caller} {caller : Caller} {events : List Event}
  {calls before after : List (Caller × Call)} {c : Call}

theorem news_eq {now : Nat} (hlog : s'.log = s.log ++ events.map (now, ·)) : news s s' = events := by
  rw [news, hlog, List.drop_left, List.map_map]
  exact List.map_id' _

namespace Drives

theorem of_call (h : Drives (before ++ (caller, .drive) :: after) driver) : driver = some caller :=
  (h caller).1 (List.mem_append_right _ List.mem_cons_self)

/-- Without the one who drives, nobody does. -/
theorem without (h : Drives (before ++ (caller, .drive) :: after) driver)
    (hnodup : ((before ++ (caller, Call.drive) :: after).map (·.1)).Nodup) :
    Drives (before ++ after) none := by
  intro c
  refine ⟨fun hmem => ?_, fun hc => by cases hc⟩
  have hsub : ∀ e ∈ before ++ after, e ∈ before ++ (caller, .drive) :: after := fun e he =>
    List.perm_middle.mem_iff.2 (List.mem_cons_of_mem _ he)
  have hc := (h c).1 (hsub _ hmem)
  rw [h.of_call, Option.some.injEq] at hc
  rw [List.map_append, List.map_cons, List.nodup_middle, ← List.map_append] at hnodup
  exact absurd (List.mem_map.2 ⟨_, hmem, hc.symm⟩) (List.nodup_cons.1 hnodup).1

/-- Calls of others can change, or come and go. -/
theorem replace (h : Drives (before ++ (calls ++ after)) driver) {calls' : List (Caller × Call)}
    (hcalls : ∀ e ∈ calls, e.2 ≠ .drive) (hcalls' : ∀ e ∈ calls', e.2 ≠ .drive) :
    Drives (before ++ (calls' ++ after)) driver := by
  intro c
  rw [← h c]
  have hno : (c, Call.drive) ∉ calls := fun hmem => hcalls _ hmem rfl
  have hno' : (c, Call.drive) ∉ calls' := fun hmem => hcalls' _ hmem rfl
  simp only [List.mem_append, hno, hno', false_or]

end Drives

/-- A step is a turn of the sequencer, of which nothing is left untold. -/
structure Follows (s s' : Driving) (driver driver' : Option Caller) (events : List Event) : Prop where
  turn : Turn s.state driver s'.state driver' events
  log : s'.log = s.log ++ events.map (s.now, ·)
  drives : Drives s'.calls driver'
  /-- Who drives the sequencer does not go without being told so, unless it is withdrawn. -/
  told : driver ≠ none → driver' = none → events = [] → ∃ name, s.withdraw? name = some s'

/-- Where nobody comes or goes who drives the sequencer, nobody has to be told so. -/
theorem Follows.same (turn : Turn s.state driver s'.state driver events)
    (log : s'.log = s.log ++ events.map (s.now, ·)) (drives : Drives s'.calls driver) :
    Follows s s' driver driver events :=
  ⟨turn, log, drives, fun hdriver hnone => absurd hnone hdriver⟩

/-- The sequencer is driven by one caller at most, and only this one has workers. -/
structure Managed (s : Driving) (driver : Option Caller) : Prop where
  distinct : s.Distinct
  drives : Drives s.calls driver
  crewed : s.state.Crewed driver

/-- Polling the call of somebody who stops the sequencer is a turn, in which nobody comes or goes
    who drives it. -/
theorem turn_of_stop {w : DrivenSequencer} {p : Polled DrivenSequencer Call Event}
    (driver : Option Caller) (hc : c ≠ .drive) (hp : w.poll caller c = some p) :
    Turn w driver p.state driver p.events ∧ ∀ e ∈ (p.rest.map (caller, ·)).toList, e.2 ≠ .drive := by
  have hsettled : ∀ {w₀ : DrivenSequencer} {reset : Bool} {p : Polled DrivenSequencer Call Event},
      (w₀ = w ∨ w₀ = { w with sequencer := w.sequencer.stop }) → w₀.settle caller reset = some p →
      Turn w driver p.state driver p.events ∧
        ∀ e ∈ (p.rest.map (caller, ·)).toList, e.2 ≠ .drive := by
    intro w₀ reset p hw₀ hsettle
    refine ⟨.settle hw₀ hsettle, fun e he => ?_⟩
    obtain ⟨-, rfl⟩ := settle_cases hsettle
    cases he
  cases c with
  | drive => exact absurd rfl hc
  | stop reset =>
    simp only [DrivenSequencer.poll, Option.some.injEq] at hp
    cases hsettle : DrivenSequencer.settle { w with sequencer := w.sequencer.stop } caller reset with
    | some p' =>
      rw [hsettle, Option.getD_some] at hp
      exact hp ▸ hsettled (.inr rfl) hsettle
    | none =>
      rw [hsettle, Option.getD_none] at hp
      subst hp
      refine ⟨.stop, fun e he => ?_⟩
      rw [List.mem_singleton.1 he]
      exact Call.noConfusion
  | stopping reset => exact hsettled (.inl rfl) hp

namespace Managed

/-- Who comes to drive the sequencer need not wait for it. -/
theorem drive_fresh (h : Managed s none) (caller : Caller) : ∃ p, s.state.drive caller = some p := by
  have hmanned : s.state.MannedBy caller := h.crewed.mannedBy (.inl rfl)
  obtain ⟨hworkers, ⟨-, hsame⟩ | hsome⟩ | ⟨-, hend⟩ := hmanned.drive
  · exact absurd (hsame.trans h.crewed.idle) hworkers
  · exact ⟨_, hsome⟩
  · exact ⟨_, hend⟩

/-- Who comes to drive the sequencer drives it from then on, unless it is at its end already. Who
    comes to stop it changes nothing about who drives it. -/
theorem follows_call (h : Managed s driver) (name : String) (hc : May s c) :
    ∃ driver' events, Follows s (s.call name c).2 driver driver' events := by
  cases c with
  | drive =>
    obtain rfl : driver = none := Option.eq_none_iff_forall_ne_some.2 fun c hdriver =>
      hc c ((h.drives c).2 hdriver)
    obtain ⟨p, hp⟩ := h.drive_fresh ⟨name, s.nextCall⟩
    rw [h.distinct.call_of_poll hp]
    refine ⟨_, p.events, .drive (.inl rfl) hp, rfl, ?_, fun hne => absurd rfl hne⟩
    obtain ⟨-, -, ⟨-, hrest, -⟩ | ⟨-, hrest, -⟩⟩ := h.crewed.drive (.inl rfl) hp
    · intro c
      simp only [hrest, Option.map_some, Option.toList_some, List.mem_append, hc c, false_or,
        List.mem_singleton, Prod.mk.injEq, and_true, Option.some.injEq, eq_comm]
    · intro c
      simp only [hrest, Option.map_none, Option.toList_none, List.append_nil]
      exact h.drives c
  | stop reset =>
    have hp : s.state.poll ⟨name, s.nextCall⟩ (.stop reset) = some _ := rfl
    obtain ⟨hturn, hrest⟩ := turn_of_stop driver Call.noConfusion hp
    rw [h.distinct.call_of_poll hp]
    refine ⟨driver, _, .same hturn rfl ?_⟩
    have hdrives : Drives (s.calls ++ ([] ++ [])) driver := by
      rw [List.append_nil, List.append_nil]
      exact h.drives
    have hreplace := hdrives.replace (fun _ he => absurd he List.not_mem_nil) hrest
    rwa [List.append_nil] at hreplace
  | stopping reset => exact hc.elim

/-- Without the one who drives the sequencer nobody does. Anybody else only waits for it to be
    stopped. -/
theorem follows_withdraw (h : Managed s driver) {name : String} (hwithdraw : s.withdraw? name = some s') :
    ∃ driver' events, Follows s s' driver driver' events := by
  obtain ⟨before, caller, c, after, hcalls, rfl⟩ := h.distinct.withdraw hwithdraw
  have hdrives := h.drives
  have hkeys := h.distinct.keys
  rw [hcalls] at hdrives hkeys
  by_cases hc : c = .drive
  · subst hc
    obtain rfl := hdrives.of_call
    exact ⟨none, [], .leave rfl, (List.append_nil _).symm, hdrives.without hkeys,
      fun _ _ _ => ⟨name, hwithdraw⟩⟩
  · have hstate : Primitive.withdraw caller c s.state = s.state := by
      cases c with
      | drive => exact absurd rfl hc
      | stop => rfl
      | stopping => rfl
    have hdrives' : Drives (before ++ ([(caller, c)] ++ after)) driver := hdrives
    have hreplace : Drives (before ++ ([] ++ after)) driver :=
      hdrives'.replace (by simpa using hc) fun _ he => absurd he List.not_mem_nil
    refine ⟨driver, [], .same ?_ (List.append_nil _).symm hreplace⟩
    rw [hstate]
    exact .pass

/-- Who drives the sequencer goes on, or comes to the end and is told so. -/
theorem follows_poll (h : Managed s driver) (hpoll : s.poll caller = some s') :
    ∃ driver' events, Follows s s' driver driver' events := by
  obtain ⟨before, c, after, p, hcalls, hp, rfl⟩ := h.distinct.poll hpoll
  have hdrives := h.drives
  have hkeys := h.distinct.keys
  rw [hcalls] at hdrives hkeys
  by_cases hc : c = .drive
  · subst hc
    obtain rfl := hdrives.of_call
    obtain ⟨-, -, ⟨-, hrest, -⟩ | ⟨-, hrest, hevents⟩⟩ := h.crewed.drive (.inr rfl) hp
    · refine ⟨_, p.events, .drive (.inr rfl) hp, rfl, ?_, fun _ hnone => ?_⟩
      · simp only [hrest]
        exact hdrives
      · rw [hrest] at hnone
        cases hnone
    · refine ⟨_, p.events, .drive (.inr rfl) hp, rfl, ?_, fun _ _ hnil => ?_⟩
      · simp only [hrest]
        exact hdrives.without hkeys
      · rw [hevents] at hnil
        exact absurd (List.append_eq_nil_iff.1 hnil).2 (List.cons_ne_nil _ _)
  · obtain ⟨hturn, hrest⟩ := turn_of_stop driver hc hp
    have hdrives' : Drives (before ++ ([(caller, c)] ++ after)) driver := hdrives
    exact ⟨driver, p.events, .same hturn rfl (hdrives'.replace (by simpa using hc) hrest)⟩

/-- Whatever is done comes to one turn of the sequencer. -/
theorem follows (h : Managed s driver) (hstep : Next s s') :
    ∃ driver' events, Follows s s' driver driver' events := by
  cases hstep with
  | act a =>
    cases a with
    | insert task => exact ⟨driver, [], .same (.insert task) (List.append_nil _).symm h.drives⟩
  | wait ms => exact ⟨driver, [], .same .pass (List.append_nil _).symm h.drives⟩
  | work hwork =>
    simp only [Simulation.work, Option.bind_eq_bind, Option.bind_eq_some_iff] at hwork
    obtain ⟨⟨w', events⟩, hwork, heq⟩ := hwork
    cases heq
    exact ⟨driver, events, .same (.work hwork) rfl h.drives⟩
  | call name hc => exact h.follows_call name hc
  | withdraw hwithdraw => exact h.follows_withdraw hwithdraw
  | poll hpoll => exact h.follows_poll hpoll

/-- What is done keeps the sequencer managed. -/
theorem next (h : Managed s driver) (hstep : Next s s') (hfollows : Follows s s' driver driver' events) :
    Managed s' driver' :=
  ⟨h.distinct.step hstep, hfollows.drives, h.crewed.turn hfollows.turn⟩

end Managed

theorem new_cases {config : SequencerConfig} {w : DrivenSequencer}
    (hw : DrivenSequencer.new config = .ok w) :
    ∃ sequencer, Sequencer.new config = .ok sequencer ∧ sequencer.config = config ∧
      w = ⟨sequencer, [], []⟩ := by
  simp only [DrivenSequencer.new, Sequencer.new] at hw ⊢
  split at hw
  next => cases hw
  next hlimit =>
    cases hw
    exact ⟨_, if_neg hlimit, rfl, rfl⟩

theorem managed_start {config : SequencerConfig} {w : DrivenSequencer}
    (hw : DrivenSequencer.new config = .ok w) : Managed (.start w) none := by
  obtain ⟨sequencer, hs, -, rfl⟩ := new_cases hw
  refine ⟨Simulation.distinct_start _, fun c => ?_, .of_idle ⟨[], [], ?_⟩ rfl⟩
  · exact ⟨fun hmem => absurd hmem List.not_mem_nil, fun hc => by cases hc⟩
  · have hsound := Ledger.sound_start hs
    exact ⟨{ hsound.kept with workers := hsound.kept.workers }, hsound.ordered, hsound.limit⟩

/-- Whatever has been done, the sequencer is managed, and works as it did at first. -/
theorem Run.managed {config : SequencerConfig} {w : DrivenSequencer}
    (hw : DrivenSequencer.new config = .ok w) (hs : Run (.start w) s) :
    (∃ driver, Managed s driver) ∧ s.state.sequencer.config = config := by
  induction hs with
  | refl =>
    obtain ⟨sequencer, -, hconfig, rfl⟩ := new_cases hw
    exact ⟨⟨none, managed_start hw⟩, hconfig⟩
  | tail _ hstep ih =>
    obtain ⟨⟨driver, h⟩, hconfig⟩ := ih
    obtain ⟨driver', events, hfollows⟩ := h.follows hstep
    exact ⟨⟨driver', h.next hstep hfollows⟩, hfollows.turn.config.trans hconfig⟩

/-! ## Coming to the end -/

/-- How many steps the workers are away from the end of their work, at most. -/
def effort (w : DrivenSequencer) : Nat := (w.workers.map (·.stage.effort)).sum

theorem sum_set_lt {l : List Nat} {i n m : Nat} (hi : l[i]? = some n) (hlt : m < n) :
    (l.set i m).sum < l.sum := by
  obtain ⟨hlength, rfl⟩ := List.getElem?_eq_some_iff.1 hi
  have hsum : (l.take i).sum + (l[i] + (l.drop (i + 1)).sum) = l.sum := by
    rw [← List.sum_cons, List.getElem_cons_drop, List.sum_take_add_sum_drop]
  rw [List.sum_set, if_pos hlength]
  omega

/-- The work comes closer to its end, step by step. -/
theorem effort_work {w w' : DrivenSequencer} {now : Nat} (h : w.work now = some (w', events)) :
    effort w' < effort w := by
  obtain ⟨i, v, stage, called, hv, rfl, hlt, -⟩ := work_cases h
  simp only [effort, List.map_set]
  exact sum_set_lt (by rw [List.getElem?_map, hv, Option.map_some]) hlt

/-- If a worker is not finished, then it goes on some time, or another does. -/
theorem exists_work {w : DrivenSequencer} {v : Worker} (hv : v ∈ w.workers)
    (hnot : ¬ ∃ o, v.stage = .finished o) :
    ∃ deadline, ∀ now, deadline ≤ now → ∃ r, w.work now = some r := by
  obtain ⟨i, hi⟩ := List.mem_iff_getElem?.1 hv
  have hgoes : ∃ deadline, ∀ now, deadline ≤ now → w.workOn now i v ≠ none := by
    cases hstage : v.stage with
    | fresh =>
      refine ⟨0, fun now _ => ?_⟩
      simp only [workOn, hstage]
      split <;> exact Option.some_ne_none _
    | resting deadline =>
      refine ⟨deadline, fun now hnow => ?_⟩
      simp only [workOn, hstage, if_pos hnow]
      exact Option.some_ne_none _
    | processing deadline o =>
      refine ⟨deadline, fun now hnow => ?_⟩
      simp only [workOn, hstage, if_pos hnow]
      exact Option.some_ne_none _
    | finished o => exact absurd ⟨o, hstage⟩ hnot
  obtain ⟨deadline, hgoes⟩ := hgoes
  -- the first worker that can go on does, which may be another
  refine ⟨deadline, fun now hnow => Option.ne_none_iff_exists'.1 fun hnone => ?_⟩
  exact hgoes now hnow (List.findSome?_eq_none_iff.1 hnone (v, i) (List.mem_zipIdx_iff_getElem?.2 hi))

/-- What happens if nobody does anything: the workers go on, and time passes. -/
inductive Alone (s : Driving) : Driving → Prop
  | work {s' : Driving} : s.work = some s' → Alone s s'
  | wait (ms : Nat) : Alone s { s with now := s.now + ms }

theorem Managed.work (h : Managed s driver) (hwork : s.work = some s') :
    Managed s' driver ∧ s'.state.sequencer = s.state.sequencer ∧ effort s'.state < effort s.state := by
  have hstep : Next s s' := .work hwork
  have hdistinct := h.distinct.step hstep
  simp only [Simulation.work, Option.bind_eq_bind, Option.bind_eq_some_iff] at hwork
  obtain ⟨⟨w', events⟩, hwork, heq⟩ := hwork
  cases heq
  have hseq : w'.sequencer = s.state.sequencer := by
    obtain ⟨-, -, -, -, -, rfl, -⟩ := work_cases hwork
    rfl
  exact ⟨⟨hdistinct, h.drives, h.crewed.turn (.work hwork)⟩, hseq, effort_work hwork⟩

/-- If nobody does anything, all workers come to the end of their work. -/
theorem Managed.works_off (h : Managed s driver) :
    ∃ s', Relation.ReflTransGen Alone s s' ∧ Managed s' driver ∧
      s'.state.sequencer = s.state.sequencer ∧
      ∀ v ∈ s'.state.workers, ∃ o, v.stage = .finished o := by
  generalize heffort : effort s.state = n
  induction n using Nat.strong_induction_on generalizing s with
  | _ n ih =>
    by_cases hall : ∀ v ∈ s.state.workers, ∃ o, v.stage = .finished o
    · exact ⟨s, .refl, h, rfl, hall⟩
    · simp only [not_forall] at hall
      obtain ⟨v, hv, hnot⟩ := hall
      obtain ⟨deadline, hgoes⟩ := exists_work hv hnot
      -- once the time has come, a worker goes on
      have hwait : Managed { s with now := s.now + deadline } driver :=
        ⟨⟨h.distinct.nodup, h.distinct.lt⟩, h.drives, h.crewed⟩
      have hnow : deadline ≤ Simulation.moment { s with now := s.now + deadline } := by
        simp only [Simulation.moment, Moment.ofMillis, Moment.nanosPerMilli]
        omega
      obtain ⟨r, hr⟩ := hgoes _ hnow
      have hwork : ∃ s', Simulation.work { s with now := s.now + deadline } = some s' := by
        refine ⟨_, Option.bind_eq_some_iff.2 ⟨r, hr, rfl⟩⟩
      obtain ⟨s', hs'⟩ := hwork
      obtain ⟨hmanaged, hseq, hlt⟩ := hwait.work hs'
      obtain ⟨last, hsteps, hlast, hseq', hfinished⟩ := ih _ (heffort ▸ hlt) hmanaged rfl
      exact ⟨last, .head (.wait deadline) (.head (.work hs') hsteps), hlast, hseq'.trans hseq, hfinished⟩

/-- Who drives the sequencer is told in a step that it is stopped, and does not go on. -/
def EndsStopped (caller : Caller) (s s' : Driving) : Prop :=
  (caller, .drive) ∈ s.calls ∧ news s s' = [.failed caller .aborted] ∧ (caller, .drive) ∉ s'.calls

/-- Nothing keeps whoever drives a stopped sequencer from being told so: its workers come to the
    end of their work, and then it is. -/
theorem Managed.finishes (h : Managed s (some caller)) (haborted : s.state.sequencer.aborted = true) :
    ∃ a b, Relation.ReflTransGen Alone s a ∧ a.poll caller = some b ∧ EndsStopped caller a b := by
  obtain ⟨a, hsteps, ha, hseq, hfinished⟩ := h.works_off
  rw [← hseq] at haborted
  have hmanned : a.state.MannedBy caller := ha.crewed.mannedBy (.inr rfl)
  have hgone := gather_of_finished haborted fun v hv => ⟨hmanned.crew v hv, hfinished v hv⟩
  obtain ⟨hnothing, -⟩ := gather_of_aborted caller haborted
  obtain ⟨hworkers, -⟩ | ⟨-, hend⟩ := hmanned.drive
  · exact absurd hgone hworkers
  · rw [hnothing, if_pos haborted] at hend
    have hmem := (ha.drives caller).2 rfl
    obtain ⟨before, after, hcalls, hpoll⟩ := ha.distinct.poll_of_mem hmem hend
    refine ⟨a, _, hsteps, hpoll, hmem, news_eq rfl, fun hstill => ?_⟩
    have hdrives := ha.drives
    have hkeys := ha.distinct.keys
    rw [hcalls] at hdrives hkeys
    cases (hdrives.without hkeys caller).1 hstill

/-- Steps in which a caller that drives the sequencer is not withdrawn. -/
abbrev Sparing (caller : Caller) : Driving → Driving → Prop :=
  Relation.ReflTransGen fun s s' => Next s s' ∧ ∀ name, s.withdraw? name = some s' →
    (caller, .drive) ∈ s.calls → (caller, .drive) ∈ s'.calls

/-- Whoever drives a stopped sequencer, and is not withdrawn, goes on or has been told so. -/
theorem Managed.told_stopped (h : Managed s (some caller)) (haborted : s.state.sequencer.aborted = true)
    (hsteps : Sparing caller s s') :
    (caller, .drive) ∈ s'.calls ∧ s'.state.sequencer.aborted = true ∨
      ∃ a b, Sparing caller s a ∧ Next a b ∧ EndsStopped caller a b ∧ Sparing caller b s' := by
  have hlive : Managed s' (some caller) ∧ s'.state.sequencer.aborted = true ∨
      ∃ a b, Sparing caller s a ∧ Next a b ∧ EndsStopped caller a b ∧ Sparing caller b s' := by
    induction hsteps with
    | refl => exact .inl ⟨h, haborted⟩
    | @tail mid last hmid hlast ih =>
      obtain ⟨hm, hstopped⟩ | ⟨a, b, ha, hab, hends, hb⟩ := ih
      · obtain ⟨driver', events, hfollows⟩ := hm.follows hlast.1
        obtain ⟨rfl, hstopped'⟩ | ⟨rfl, rfl | ⟨rfl, -⟩⟩ := hfollows.turn.ends hm.crewed hstopped
        · exact .inl ⟨hm.next hlast.1 hfollows, hstopped'⟩
        · refine .inr ⟨mid, last, hmid, hlast.1, ⟨(hm.drives caller).2 rfl, ?_, fun hstill => ?_⟩, .refl⟩
          · exact news_eq hfollows.log
          · cases (hfollows.drives caller).1 hstill
        · -- nothing is told only if the caller was withdrawn, which is excluded
          obtain ⟨name, hwithdraw⟩ := hfollows.told (Option.some_ne_none _) rfl rfl
          have hstill := hlast.2 name hwithdraw ((hm.drives caller).2 rfl)
          cases (hfollows.drives caller).1 hstill
      · exact .inr ⟨a, b, ha, hab, hends, hb.tail hlast⟩
  exact hlive.imp_left fun hm => ⟨(hm.1.drives caller).2 rfl, hm.2⟩

/-! ## Stopping -/

/-- Nothing is told of the tasks of a sequencer that is stopped, and it changes only in that
    tasks are not worked on any more, until it is emptied. -/
def Silent (s s' : Driving) : Prop :=
  (∀ notice, .notice notice ∉ news s s') ∧ ((∃ caller, .stopped caller true ∈ news s s') ∨
    s'.state.sequencer.aborted = true ∧ ((∃ caller, .stopped caller false ∈ news s s') ∨
      ∃ running, running.Sublist s.state.sequencer.running ∧
        s'.state.sequencer = { s.state.sequencer with running }))

/-- Whoever stops the sequencer has done so at once. -/
theorem Managed.stop (h : Managed s driver) (name : String) (reset : Bool) :
    (s.call name (.stop reset)).2.state.sequencer.aborted = true ∨
      .stopped ⟨name, s.nextCall⟩ true ∈ news s (s.call name (.stop reset)).2 := by
  have hp : s.state.poll ⟨name, s.nextCall⟩ (.stop reset) = some _ := rfl
  rw [h.distinct.call_of_poll hp, news_eq rfl]
  cases hsettle : DrivenSequencer.settle { s.state with sequencer := s.state.sequencer.stop }
      ⟨name, s.nextCall⟩ reset with
  | none => exact .inl rfl
  | some p =>
    obtain ⟨-, rfl⟩ := settle_cases hsettle
    cases reset with
    | true => exact .inr (List.mem_singleton_self _)
    | false => exact .inl rfl

/-- Who waits for the sequencer to be stopped waits for the workers of the one who drives it. -/
theorem Managed.waits_iff (h : Managed s driver) {reset : Bool}
    (hmem : (caller, .stopping reset) ∈ s.calls) : s.poll caller = none ↔ driver ≠ none := by
  rw [Ne, ← h.crewed.running_eq_nil_iff]
  constructor
  · intro hnone hrunning
    cases hsettle : s.state.settle caller reset with
    | none => exact settle_eq_none_iff.1 hsettle hrunning
    | some p =>
      obtain ⟨before, after, -, hpoll⟩ := h.distinct.poll_of_mem hmem hsettle
      cases hnone.symm.trans hpoll
  · intro hrunning
    have hsettle : s.state.settle caller reset = none := settle_eq_none_iff.2 hrunning
    have hwaits : Primitive.poll s.moment caller (Call.stopping reset) s.state = none := hsettle
    simp only [Simulation.poll, lookup_of_mem h.distinct.keys hmem, Option.bind_eq_bind,
      Option.bind_some, hwaits, Option.bind_none]

/-- Whoever comes to drive a stopped sequencer is told so at once. -/
theorem Managed.refused (h : Managed s none) (haborted : s.state.sequencer.aborted = true)
    (name : String) : s.call name .drive = (true, { s with
      nextCall := s.nextCall + 1
      log := s.log ++ [(s.now, .failed ⟨name, s.nextCall⟩ .aborted)] }) := by
  have hmanned : s.state.MannedBy ⟨name, s.nextCall⟩ := h.crewed.mannedBy (.inl rfl)
  have hidle := gather_of_idle ⟨name, s.nextCall⟩ haborted h.crewed.idle
  obtain ⟨hworkers, -⟩ | ⟨-, hend⟩ := hmanned.drive
  · rw [hidle] at hworkers
    exact absurd h.crewed.idle hworkers
  · rw [hidle, if_pos haborted] at hend
    rw [h.distinct.call_of_poll hend]
    simp

/-- Whatever is done to a sequencer that is driven by one caller at a time: the tasks that are
    being worked on are those of the workers of the one who drives it, and there are none if
    nobody does. Whoever stops the sequencer has done so at once, and waits for nobody else. When
    this comes to its end the sequencer is empty, and after a reset it is as a new one. As long
    as the sequencer is stopped, nothing is put in, admitted or told, and what workers bring is
    thrown away; who comes to drive it is told that it is stopped, and so is in the end who does
    already, unless it is withdrawn. -/
theorem stops_and_resets {config : SequencerConfig} {w : DrivenSequencer}
    (hw : DrivenSequencer.new config = .ok w) (hs : Run (.start w) s) :
    (∃ driver, Drives s.calls driver ∧ (∀ v ∈ s.state.workers, driver = some v.owner) ∧
        s.state.sequencer.running.Perm (s.state.workers.map (·.entry)) ∧
        (driver = none → s.state.sequencer.running = [])) ∧
      (∀ name reset, (s.call name (.stop reset)).2.state.sequencer.aborted = true ∨
        .stopped ⟨name, s.nextCall⟩ true ∈ news s (s.call name (.stop reset)).2) ∧
      (∀ caller reset, (caller, .stopping reset) ∈ s.calls →
        (s.poll caller = none ↔ ∃ c, (c, .drive) ∈ s.calls)) ∧
      (∀ s', Next s s' → ∀ caller reset, .stopped caller reset ∈ news s s' →
        s'.state.sequencer.IsEmpty ∧
          (reset = true → Sequencer.new config = .ok s'.state.sequencer)) ∧
      (s.state.sequencer.aborted = true →
        (∀ task, s.state.act (.insert task) = (none, s.state)) ∧
        (∀ s', Next s s' → Silent s s') ∧
        (∀ name, (∀ c, (c, .drive) ∉ s.calls) → s.call name .drive = (true, { s with
          nextCall := s.nextCall + 1
          log := s.log ++ [(s.now, .failed ⟨name, s.nextCall⟩ .aborted)] })) ∧
        ∀ caller, (caller, .drive) ∈ s.calls →
          (∀ s', Sparing caller s s' →
            (caller, .drive) ∈ s'.calls ∧ s'.state.sequencer.aborted = true ∨
              ∃ a b, Sparing caller s a ∧ Next a b ∧ EndsStopped caller a b ∧ Sparing caller b s') ∧
          ∃ a b, Relation.ReflTransGen Alone s a ∧ a.poll caller = some b ∧
            EndsStopped caller a b) := by
  obtain ⟨⟨driver, h⟩, hconfig⟩ := Run.managed hw hs
  refine ⟨⟨driver, h.drives, h.crewed.crew, h.crewed.running, h.crewed.running_eq_nil_iff.2⟩, h.stop,
    fun caller reset hmem => ?_, fun s' hstep caller reset hstopped => ?_,
    fun haborted => ⟨act_of_aborted haborted, fun s' hstep => ?_, fun name hnobody => ?_,
      fun caller hmem => ?_⟩⟩
  · rw [h.waits_iff hmem, Option.ne_none_iff_exists']
    exact exists_congr fun c => (h.drives c).symm
  · obtain ⟨driver', events, hfollows⟩ := h.follows hstep
    rw [news_eq hfollows.log] at hstopped
    exact hconfig ▸ hfollows.turn.emptied h.crewed hstopped
  · obtain ⟨driver', events, hfollows⟩ := h.follows hstep
    rw [Silent, news_eq hfollows.log]
    exact hfollows.turn.stopped h.crewed haborted
  · obtain rfl : driver = none := Option.eq_none_iff_forall_ne_some.2 fun c hdriver =>
      hnobody c ((h.drives c).2 hdriver)
    exact h.refused haborted name
  · obtain rfl := (h.drives caller).1 hmem
    exact ⟨fun s' hsteps => h.told_stopped haborted hsteps, h.finishes haborted⟩

/-- A sequencer is stopped while a task is being worked on. -/
theorem stops_and_resets_oneTask :
    let w : DrivenSequencer := ⟨⟨.dev, [], [], [], 0, 0, 0, 0, false⟩, [], []⟩
    let s₁ : Driving := (Simulation.act (.start w) (.insert ⟨"a", []⟩)).2
    let s₂ : Driving := (s₁.call "driver" .drive).2
    let s : Driving := (s₂.call "stopper" (.stop true)).2
    DrivenSequencer.new .dev = .ok w ∧ Run (.start w) s ∧ s.state.sequencer.aborted = true ∧
      s.poll ⟨"stopper", 1⟩ = none ∧ s.state.act (.insert ⟨"b", []⟩) = (none, s.state) ∧
      ∃ a b, Relation.ReflTransGen Alone s a ∧ a.poll ⟨"driver", 0⟩ = some b ∧
        EndsStopped ⟨"driver", 0⟩ a b := by
  intro w s₁ s₂ s
  have hw : DrivenSequencer.new .dev = .ok w := rfl
  have hinserted : Next (.start w) s₁ := .act (Action.insert ⟨"a", []⟩)
  have hnobody : May s₁ .drive := fun _ hmem => by cases hmem
  have hdriven : Next s₁ s₂ := .call "driver" hnobody
  have hstops : Next s₂ s := .call "stopper" trivial
  have hs : Run (.start w) s := .head hinserted (.head hdriven (.single hstops))
  have hdriver : (⟨"driver", 0⟩, Call.drive) ∈ s.calls := by decide
  have hstopper : (⟨"stopper", 1⟩, Call.stopping true) ∈ s.calls := by decide
  have haborted : s.state.sequencer.aborted = true := rfl
  obtain ⟨-, -, hwaits, -, hstopped⟩ := stops_and_resets hw hs
  obtain ⟨hinsert, -, -, hdrives⟩ := hstopped haborted
  exact ⟨hw, hs, haborted, (hwaits _ _ hstopper).2 ⟨_, hdriver⟩, hinsert _, (hdrives _ hdriver).2⟩

end DrivenSequencer

end ConsensusCore
