import ConsensusCore.Proofs.Concurrency.Barrier.Crowd

/-!
# A barrier among callers

In a simulation a caller who has to wait is only polled when that would be of use, and whoever
brings the count to zero announces it at once. This is one of the orders in which all can be done
(`Barrier.Mirrors`).

* `Barrier.exists_run`: whatever callers do, and whenever, is a run of the barrier;
* `Barrier.settle_letsThrough`: when all is done that can be done at a moment, those have been let
  through who are due.
-/

namespace ConsensusCore

namespace Barrier

open Crowd

variable {s s' : Simulation Barrier Wait Event}

/-- What callers do at a barrier has a history, in which all openings are announced at once. -/
structure Mirrors (h : History) (c : Crowd) (s : Simulation Barrier Wait Event) : Prop where
  run : Run h c
  barrier : c.barrier = s.state
  bells : c.bells = 0
  next : c.next = s.nextCall
  calls : s.calls = c.waiters.map fun w => (w.caller, w.wait)
  asleep : ∀ w ∈ c.waiters, ∃ told, w.stage = .asleep told
  log : s.log.map (·.2) = (through h).reverse.map .passed

namespace Mirrors

variable {h : History} {c : Crowd} (hm : Mirrors h c s)
include hm

theorem act (a : Action) : ∃ h' c', Mirrors h' c' (s.act a).2 := by
  have hact := hm.run.step (.act a)
  have hsame : (s.act a).2 = { s with state := (s.state.act a).2 } := rfl
  rw [hsame, ← hm.barrier]
  rcases c.barrier.openings_act a with ⟨-, heq⟩ | ⟨-, heq⟩
  · have hbells : c.bells + ((c.barrier.act a).2.openings - c.barrier.openings) = 0 + 1 := by
      rw [hm.bells, heq, Nat.add_sub_cancel_left]
    refine ⟨_, _, hact.step (.announce hbells), rfl, rfl, hm.next, ?_, ?_, hm.log⟩
    · rw [List.map_map]
      exact hm.calls
    · refine List.forall_mem_map.2 fun w hw => ?_
      obtain ⟨told, hstage⟩ := hm.asleep w hw
      exact ⟨true, by simp only [hstage, Stage.tell]⟩
  · refine ⟨_, _, hact, rfl, ?_, hm.next, hm.calls, hm.asleep, hm.log⟩
    simp only [hm.bells, heq, Nat.sub_self]

/-- Whoever waits is polled when something has been announced, and then enrols and looks. -/
theorem poll {caller : Caller} (hd : s.Distinct) (hpoll : s.poll caller = some s') :
    ∃ h' c', Mirrors h' c' s' := by
  obtain ⟨before, wait, after, p, hcalls, hp, rfl⟩ := hd.poll hpoll
  rw [hm.calls] at hcalls
  obtain ⟨before, rest, hwaiters, rfl, hrest⟩ := List.map_eq_append_iff.1 hcalls
  obtain ⟨⟨caller, wait, stage⟩, after, rfl, heq, rfl⟩ := List.map_eq_cons_iff.1 hrest
  cases heq
  have hw : ⟨caller, wait, stage⟩ ∈ c.waiters := hwaiters ▸ by simp
  have hfits := hm.run.kept.fits _ hw
  have htracks : c.barrier.Tracks (Due h caller) wait := hfits.tracks
  have hp' : Barrier.poll c.barrier caller wait = some p := hm.barrier ▸ hp
  rw [Barrier.poll] at hp'
  rcases htracks.poll with ⟨hdue, hwait⟩ | ⟨-, hwait⟩ <;> rw [hwait] at hp'
  · cases hp'
    have hstage : stage = .asleep true := by
      obtain ⟨told, rfl⟩ := hm.asleep _ hw
      cases told with
      | true => rfl
      | false =>
        have hpos := hfits.told rfl hdue
        rw [hm.bells] at hpos
        exact absurd hpos (Nat.lt_irrefl 0)
    subst hstage
    have hlook := ((hm.run.step (.wake hwaiters)).step (.enrol rfl)).step (.look rfl)
    simp only [hwait] at hlook
    refine ⟨_, _, hlook, rfl, hm.bells, hm.next, ?_, fun w hw' => hm.asleep w ?_, ?_⟩
    · exact List.map_append.symm
    · rw [hwaiters]
      rcases List.mem_append.1 hw' with hw' | hw'
      · exact List.mem_append_left _ hw'
      · exact List.mem_append_right _ (List.mem_cons_of_mem _ hw')
    · simp [hm.log, through]
  · simp at hp'

theorem withdraw {name : String} (hd : s.Distinct) (hwithdraw : s.withdraw? name = some s') :
    ∃ h' c', Mirrors h' c' s' := by
  obtain ⟨before, caller, wait, after, hcalls, rfl⟩ := hd.withdraw hwithdraw
  rw [hm.calls] at hcalls
  obtain ⟨before, rest, hwaiters, rfl, hrest⟩ := List.map_eq_append_iff.1 hcalls
  obtain ⟨w, after, rfl, heq, rfl⟩ := List.map_eq_cons_iff.1 hrest
  refine ⟨_, _, hm.run.step (.leave hwaiters), hm.barrier, hm.bells, hm.next,
    List.map_append.symm, fun w' hw' => hm.asleep w' ?_, hm.log⟩
  rw [hwaiters]
  rcases List.mem_append.1 hw' with hw' | hw'
  · exact List.mem_append_left _ hw'
  · exact List.mem_append_right _ (List.mem_cons_of_mem _ hw')

/-- Whoever calls comes, and enrols and looks again if the count is not zero. -/
theorem call (hd : s.Distinct) (name : String) :
    ∃ h' c', Mirrors h' c' (s.call name .fresh).2 := by
  have hnumber : (⟨name, s.nextCall⟩ : Caller).number = c.next := hm.next.symm
  have hcome := hm.run.step (.come hnumber)
  rcases c.barrier.poll_fresh with ⟨hzero, hpoll⟩ | ⟨hpos, hpoll, htracks⟩ <;>
    simp only [hpoll] at hcome
  · have hp : Primitive.poll s.moment ⟨name, s.nextCall⟩ Wait.fresh s.state =
        some ⟨s.state, none, [Event.passed ⟨name, s.nextCall⟩]⟩ := by
      change Barrier.poll s.state _ _ = _
      rw [Barrier.poll, ← hm.barrier, hpoll]
    rw [hd.call_of_poll hp]
    refine ⟨_, _, hcome, hm.barrier, hm.bells, by simp [hm.next], ?_, ?_, ?_⟩
    · simp [hm.calls]
    · simpa using hm.asleep
    · simp [hm.log, through]
  · have hp : Primitive.poll s.moment ⟨name, s.nextCall⟩ Wait.fresh s.state =
        some ⟨s.state, some (.since s.state.openings), []⟩ := by
      change Barrier.poll s.state _ _ = _
      rw [Barrier.poll, ← hm.barrier, hpoll]
      exact if_neg (by simp)
    rw [hd.call_of_poll hp]
    have henrol := hcome.step (.enrol rfl)
    have hlook := henrol.step (.look rfl)
    rcases htracks.poll with ⟨hdue, -⟩ | ⟨-, hagain⟩
    · exact hdue.elim
    simp only [hagain] at hlook
    refine ⟨_, _, hlook, hm.barrier, hm.bells, by simp [hm.next], ?_, ?_, ?_⟩
    · simp [hm.calls, hm.barrier]
    · simp only [List.append_nil, Option.map_some, Option.toList_some, List.forall_mem_append]
      exact ⟨hm.asleep, List.forall_mem_singleton.2 ⟨false, rfl⟩⟩
    · simp [hm.log, through]

end Mirrors

/-- Whatever callers do at a barrier, and whenever, has a history. -/
theorem exists_run {s : Simulation Barrier Wait Event}
    (hs : Simulation.Reach (· = Wait.fresh) (.start .new) s) :
    s.Distinct ∧ ∃ h c, Mirrors h c s := by
  induction hs with
  | refl =>
    exact ⟨Simulation.distinct_start _, [], .start, .start, rfl, rfl, rfl, rfl,
      fun _ hw => absurd hw List.not_mem_nil, rfl⟩
  | tail _ hstep ih =>
    obtain ⟨hd, h, c, hm⟩ := ih
    refine ⟨hd.step hstep, ?_⟩
    cases hstep with
    | act a => exact hm.act a
    | call name hnew => exact hnew ▸ hm.call hd name
    | withdraw hwithdraw => exact hm.withdraw hd hwithdraw
    | poll hpoll => exact hm.poll hd hpoll
    | work hwork => simp [Simulation.work, Primitive.work] at hwork
    | wait ms => exact ⟨h, c, hm.run, hm.barrier, hm.bells, hm.next, hm.calls, hm.asleep, hm.log⟩

/-- Whoever has to wait still has to when nothing has changed. -/
theorem Wait.poll_again {b : Barrier} {w w' : Wait} (h : w.poll b = some w') :
    w'.poll b = some w' := by
  cases w with
  | fresh =>
    rcases b.poll_fresh with ⟨-, hnone⟩ | ⟨-, hsome, htracks⟩
    · cases hnone.symm.trans h
    · cases hsome.symm.trans h
      exact (htracks.poll.resolve_left And.left).2
  | since n =>
    simp only [Wait.poll] at h
    split at h
    next => cases h
    next hnot =>
      cases h
      exact if_neg hnot

theorem poll_eq_none {b : Barrier} {caller : Caller} {w : Wait} (h : b.poll caller w = none) :
    w.poll b = some w := by
  rw [Barrier.poll] at h
  split at h
  next => cases h
  next w' hwait =>
    split at h
    next heq => rw [hwait, heq]
    next => cases h

/-- A poll does nothing to the barrier. -/
theorem poll_eq_some {b : Barrier} {caller : Caller} {w : Wait} {p : Polled Barrier Wait Event}
    (h : b.poll caller w = some p) : p.state = b ∧ ∀ w' ∈ p.rest, w'.poll b = some w' := by
  rw [Barrier.poll] at h
  split at h
  next =>
    cases h
    exact ⟨rfl, fun _ hw' => by cases hw'⟩
  next w' hwait =>
    split at h
    next => cases h
    next =>
      cases h
      refine ⟨rfl, fun w'' hw'' => ?_⟩
      cases hw''
      exact Wait.poll_again hwait

/-- When all have been polled, all that wait have to wait. -/
theorem rest_pollAll (hd : s.Distinct) :
    s.pollAll.2.Distinct ∧ ∀ e ∈ s.pollAll.2.calls, e.2.poll s.pollAll.2.state = some e.2 := by
  -- over the calls that are still to be polled
  have hfold : ∀ (l : List (Caller × Wait)) (r : Bool × Simulation Barrier Wait Event),
      r.2.Distinct → (∀ e ∈ r.2.calls, e ∈ l ∨ e.2.poll r.2.state = some e.2) →
      let r' := l.foldl (fun r e => (r.2.poll e.1).elim r (true, ·)) r
      r'.2.Distinct ∧ ∀ e ∈ r'.2.calls, e.2.poll r'.2.state = some e.2 := by
    intro l
    induction l with
    | nil => exact fun r hd hrest => ⟨hd, fun e he => (hrest e he).resolve_left List.not_mem_nil⟩
    | cons e l ih =>
      intro r hd hrest
      rw [List.foldl_cons]
      cases hpoll : r.2.poll e.1 with
      | none =>
        refine ih r hd fun e' he' => ?_
        rcases hrest e' he' with hmem | hwait
        · rcases List.mem_cons.1 hmem with rfl | hmem
          · cases hp : Barrier.poll r.2.state e'.1 e'.2 with
            | none => exact .inr (poll_eq_none hp)
            | some p =>
              obtain ⟨_, _, -, hsome⟩ := hd.poll_of_mem he' hp
              cases hpoll.symm.trans hsome
          · exact .inl hmem
        · exact .inr hwait
      | some s' =>
        refine ih (true, s') (hd.after_poll hpoll) fun e' he' => ?_
        obtain ⟨before, w, after, p, hcalls, hp, rfl⟩ := hd.poll hpoll
        obtain ⟨hstate, hagain⟩ := poll_eq_some hp
        have hkeys := hd.keys
        rw [hcalls, List.map_append, List.map_cons, List.nodup_middle, List.nodup_cons,
          ← List.map_append] at hkeys
        have hothers : ∀ o ∈ before ++ after, o ∈ l ∨ o.2.poll p.state = some o.2 := by
          intro o ho
          have hmem : o ∈ r.2.calls := by
            rw [hcalls]
            rcases List.mem_append.1 ho with ho | ho <;> simp [ho]
          rw [hstate]
          refine (hrest o hmem).imp_left fun hl => (List.mem_cons.1 hl).resolve_left ?_
          rintro rfl
          exact hkeys.1 (List.mem_map.2 ⟨o, ho, rfl⟩)
        simp only [List.mem_append, Option.mem_toList, Option.map_eq_some_iff] at he'
        rcases he' with he' | ⟨w', hw', rfl⟩ | he'
        · exact hothers e' (List.mem_append_left _ he')
        · exact .inr (hstate ▸ hagain w' hw')
        · exact hothers e' (List.mem_append_right _ he')
  exact hfold s.calls (false, s) hd fun e he => .inl he

/-- When all is done that can be done, all that wait have to wait. -/
theorem rest_settleWithin (hd : s.Distinct) (n : Nat) :
    ∀ e ∈ (s.settleWithin (n + 1)).calls,
      e.2.poll (s.settleWithin (n + 1)).state = some e.2 := by
  induction n generalizing s with
  | zero =>
    have hsettled : s.settleWithin 1 = s.pollAll.2 := by
      simp [Simulation.settleWithin, Simulation.work, Primitive.work]
    rw [hsettled]
    exact (rest_pollAll hd).2
  | succ n ih =>
    have hsettled : s.settleWithin (n + 2) =
        if s.pollAll.1 then s.pollAll.2.settleWithin (n + 1) else s.pollAll.2 := by
      rw [Simulation.settleWithin]
      simp [Simulation.work, Primitive.work]
    rw [hsettled]
    split
    · exact ih (rest_pollAll hd).1
    · exact (rest_pollAll hd).2

/-- When all is done that can be done at a moment, all have been let through who are due and have
    not left. -/
theorem settle_letsThrough (hs : Simulation.Reach (· = Wait.fresh) (.start .new) s) :
    ∃ h c, Mirrors h c s.settle ∧ ∀ caller, Came h caller → caller ∉ gone h →
      (Event.passed caller ∈ s.settle.log.map (·.2) ↔ Due h caller) := by
  obtain ⟨-, h, c, hm⟩ := exists_run (hs.trans (Simulation.reach_settle s))
  have hrest := rest_settleWithin (exists_run hs).1
    (4 * s.calls.length + Primitive.workload s.state)
  refine ⟨h, c, hm, fun caller hcame hgone => ?_⟩
  have hlog : Event.passed caller ∈ s.settle.log.map (·.2) ↔ caller ∈ through h := by
    rw [hm.log]
    simp
  rw [hlog]
  refine ⟨hm.run.kept.due caller, fun hdue => ?_⟩
  rcases hm.run.kept.place caller hcame with hthrough | hleft | ⟨w, hw, rfl⟩
  · exact hthrough
  · exact absurd hleft hgone
  · have hmem : (w.caller, w.wait) ∈ s.settle.calls := hm.calls ▸ List.mem_map_of_mem hw
    have hwaits : w.wait.poll s.settle.state = some w.wait := hrest _ hmem
    rcases (hm.run.kept.fits w hw).tracks.poll with ⟨-, hpoll⟩ | ⟨hnot, -⟩
    · rw [hm.barrier, hwaits] at hpoll
      cases hpoll
    · exact absurd hdue hnot

end Barrier

end ConsensusCore
