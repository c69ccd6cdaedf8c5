import ConsensusCore.Proofs.Concurrency.Runner.Books

/-!
# What a runner keeps to

A shift tells what a runner owes to its callers, whatever they do and in whatever order jobs
end: its limit, the order of admission, right counts, and the outcomes of jobs.

* `Sound.poll_join`, `Step.idle`: when handles resolve, and when nothing is left to do;
* `follows`: what happens in a simulation of a workshop is done in steps of a shift, in which
  every job leaves as soon as it has an outcome;
* `runs_in_order`: all of this, from the beginning of a shift.
-/

namespace ConsensusCore.Runner.Shift

variable {s s' : Shift} {sim : Simulation Workshop Call Event} {caller : Caller} {job : Job}
  {i limit : Nat} {events : List Event}

namespace Sound

/-- Nothing is left to do exactly if all who have submitted a job have left. -/
theorem idle_iff (hs : s.Sound limit) :
    s.sim.state.runner.idle = true ↔ s.left.Perm (s.submitted.map (·.caller)) := by
  have hinLine := congrArg List.length hs.orderly.inLine
  have hplaced := hs.orderly.placed.length_eq
  simp only [List.length_append, Workshop.workers, Workshop.waiting, List.length_map]
    at hinLine hplaced
  rw [idle, Bool.and_eq_true, List.isEmpty_iff, List.isEmpty_iff]
  constructor
  · rintro ⟨hrunning, hqueue⟩
    have hperm := hs.orderly.placed
    rw [Workshop.workers, hrunning, List.map_nil, List.nil_append] at hperm
    rw [← hs.orderly.inLine, Workshop.waiting, hqueue, List.map_nil, List.append_nil]
    exact hperm
  · intro hperm
    have hlength := hperm.length_eq
    rw [List.length_map] at hlength
    exact ⟨List.length_eq_zero_iff.1 (by omega), List.length_eq_zero_iff.1 (by omega)⟩

theorem eq_of_caller {job' : Job} (hs : s.Sound limit) (hjob : job ∈ s.submitted)
    (hjob' : job' ∈ s.submitted) (h : job.caller = job'.caller) : job = job' :=
  List.inj_on_of_nodup_map hs.orderly.nodup hjob hjob' h

/-- The outcome that is there for a job is its own. -/
theorem lookup_eq (hs : s.Sound limit) (hjob : job ∈ s.submitted) :
    s.sim.state.outcomes.lookup job.caller =
      if job.caller ∈ s.sim.state.decided then some job.outcome else none := by
  cases hlookup : s.sim.state.outcomes.lookup job.caller with
  | none =>
    rw [if_neg]
    intro hover
    obtain ⟨e, he, heq⟩ := List.mem_map.1 hover
    simpa [heq] using List.lookup_eq_none_iff.1 hlookup e he
  | some outcome =>
    have hmem := mem_of_lookup hlookup
    obtain ⟨job', hjob', hcaller, hown⟩ := hs.honest.own _ hmem
    have hover : job.caller ∈ s.sim.state.decided := List.mem_map.2 ⟨_, hmem, rfl⟩
    rw [if_pos hover, ← hs.eq_of_caller hjob' hjob hcaller]
    exact congrArg some hown

/-- What callers have been told of a job is its own outcome. -/
theorem eq_outcome_of_joined (hs : s.Sound limit) (hjob : job ∈ s.submitted)
    {outcome : Except PrimitiveError String}
    (h : .joined job.caller outcome ∈ s.sim.log.map (·.2)) : outcome = job.outcome := by
  obtain ⟨e, he, hjoined⟩ := List.mem_map.1 h
  obtain ⟨job', hjob', hcaller, rfl⟩ := hs.honest.joined e he _ _ hjoined
  rw [hs.eq_of_caller hjob' hjob hcaller]

/-- In flight are those who are admitted and have not left. -/
theorem length_running (hs : s.Sound limit) :
    s.sim.state.runner.running.length = (s.admitted.filter (· ∉ s.left)).length := by
  have hdisjoint := List.disjoint_of_nodup_append (List.nodup_append.1 hs.orderly.places).1
  have hworkers : s.sim.state.workers.filter (· ∉ s.left) = s.sim.state.workers :=
    List.filter_eq_self.2 fun c hc => by simpa using fun hleft => hdisjoint hc hleft
  have hperm := hs.orderly.placed.filter (· ∉ s.left)
  rw [List.filter_append, hworkers, filter_notMem_eq_nil (List.Subset.refl _),
    List.append_nil] at hperm
  rw [← hperm.length_eq, Workshop.workers, List.length_map]

/-- In the queue are those who have submitted a job that is not admitted. -/
theorem length_queue (hs : s.Sound limit) :
    s.sim.state.runner.queue.length =
      ((s.submitted.map (·.caller)).filter (· ∉ s.admitted)).length := by
  have hnodup := hs.orderly.inLine ▸ hs.orderly.nodup
  have hdisjoint := List.disjoint_of_nodup_append hnodup
  have hwaiting : s.sim.state.waiting.filter (· ∉ s.admitted) = s.sim.state.waiting :=
    List.filter_eq_self.2 fun c hc => by simpa using fun hadmitted => hdisjoint hadmitted hc
  rw [← hs.orderly.inLine, List.filter_append, hwaiting, filter_notMem_eq_nil (List.Subset.refl _),
    List.nil_append, Workshop.waiting, List.length_map]

end Sound

theorem happened_eq (events : List Event)
    (hlog : s'.sim.log = s.sim.log ++ events.map (s.sim.now, ·)) :
    s.happened s' = events := by
  rw [happened, hlog, List.drop_left, List.map_map]
  exact List.map_id' events

/-- The handle of a job that is over resolves when it is polled next, with the outcome of the
    job; that of any other job has to wait. -/
theorem Sound.poll_join (hs : s.Sound limit) (hjob : job ∈ s.submitted)
    (hwait : (job.caller, Call.join) ∈ s.sim.calls) :
    (job.caller ∉ s.sim.state.decided → s.sim.poll job.caller = none) ∧
    (job.caller ∈ s.sim.state.decided → ∃ sim, s.sim.poll job.caller = some sim ∧
      s.happened (s.watch sim) = [.joined job.caller job.outcome]) := by
  have hlookup := hs.lookup_eq hjob
  refine ⟨fun hover => ?_, fun hover => ?_⟩
  · rw [if_neg hover] at hlookup
    have hpoll : s.sim.state.poll job.caller .join = none := by
      rw [Workshop.poll, hlookup, Option.map_none]
    simp only [Simulation.poll, lookup_of_mem hs.distinct.keys hwait, Option.bind_eq_bind,
      Option.bind_some]
    exact congrArg (Option.bind · _) hpoll
  · rw [if_pos hover] at hlookup
    have hpoll : s.sim.state.poll job.caller .join =
        some ⟨s.sim.state, none, [.joined job.caller job.outcome]⟩ := by
      rw [Workshop.poll, hlookup, Option.map_some]
    obtain ⟨before, after, -, hsome⟩ := hs.distinct.poll_of_mem hwait hpoll
    exact ⟨_, hsome, happened_eq _ rfl⟩

/-- That nothing is left to do is only told where all have left. -/
theorem Step.idle (hs : s.Sound limit) (h : Step s s') (hidle : .idle caller ∈ s.happened s') :
    s'.left.Perm (s'.submitted.map (·.caller)) := by
  cases h with
  | visit hvisit =>
    cases (hvisit.effect hs.distinct hs.attended.waits).1 with
    | submit job hstage hnumber hrunner houtcomes hcalls hnext hlog =>
      rw [happened_eq [] (hlog.trans (List.append_nil _).symm)] at hidle
      exact absurd hidle List.not_mem_nil
    | quiet events hrunner houtcomes hcalls hkeep hnext hlog htold hdropped =>
      rw [happened_eq _ hlog] at hidle
      rw [watch_of_same (congrArg (·.running.map (·.caller)) hrunner)]
      rcases htold _ hidle with - | hrest
      exact hs.idle_iff.1 hrest
  | begin hi hstage =>
    rw [happened_eq [.started _] rfl] at hidle
    cases List.mem_singleton.1 hidle
  | deliver hi hstage hover =>
    rw [happened_eq (s.sim.state.deliver _).2 rfl] at hidle
    simp only [Workshop.deliver] at hidle
    split at hidle
    · exact absurd hidle List.not_mem_nil
    · cases List.mem_singleton.1 hidle
  | goOn hi hover =>
    rw [happened_eq [] rfl] at hidle
    exact absurd hidle List.not_mem_nil

/-! ## Simulations -/

/-- Callers submit jobs, and wait for nothing to be left to do. -/
def IsNew (c : Call) : Prop := c ≠ .join

/-- Whose job has an outcome has left. -/
def Prompt (s : Shift) : Prop := s.sim.state.decided ⊆ s.left

theorem Effect.prompt (hp : s.Prompt) (h : s.Effect s') : s'.Prompt := by
  have hsame : s'.sim.state.outcomes = s.sim.state.outcomes := by
    cases h <;> assumption
  have hleft : s.left ⊆ s'.left := by
    cases h <;> exact List.subset_append_left ..
  intro c hc
  rw [Workshop.decided, hsame] at hc
  exact hleft (hp hc)

/-- What a workshop does by itself is that a job begins, or that it is over and its worker goes
    on at once. -/
theorem steps_work {sim' : Simulation Workshop Call Event} (hs : s.Sound limit) (hp : s.Prompt)
    (h : s.sim.work = some sim') : ∃ s', Reach s s' ∧ s'.sim = sim' ∧ s'.Prompt := by
  simp only [Simulation.work, Option.bind_eq_bind, Option.bind_eq_some_iff] at h
  obtain ⟨r, hwork, heq⟩ := h
  obtain ⟨⟨job, i⟩, hmem, hjob⟩ := List.exists_of_findSome?_eq_some hwork
  have hi : s.sim.state.runner.running[i]? = some job := List.mem_zipIdx_iff_getElem?.1 hmem
  have hworks : job.caller ∈ s.sim.state.workers := List.mem_map_of_mem (List.mem_of_getElem? hi)
  have hnotOver : job.caller ∉ s.sim.state.decided := fun hover =>
    List.disjoint_of_nodup_append (List.nodup_append.1 hs.orderly.places).1 hworks (hp hover)
  have hcases : (job.stage = .submitted ∧ r = s.sim.state.begin s.sim.moment i job) ∨
      (job.stage ≠ .submitted ∧ r = s.sim.state.finish i job) := by
    simp only [Workshop.workOn] at hjob
    split at hjob
    next hstage => exact .inl ⟨hstage, (Option.some.inj hjob).symm⟩
    next deadline hstage =>
      split at hjob
      next => exact .inr ⟨by simp [hstage], (Option.some.inj hjob).symm⟩
      next => cases hjob
    next hstage =>
      split at hjob
      next => cases hjob
      next => exact .inr ⟨by simp [hstage], (Option.some.inj hjob).symm⟩
  rcases hcases with ⟨hstage, rfl⟩ | ⟨hstage, rfl⟩
  · refine ⟨_, .single (.begin hi hstage), Option.some.inj heq, fun c hc => ?_⟩
    exact List.mem_append_left _ (hp hc)
  · have hdeliver := Step.deliver hi hstage hnotOver
    have hs' := hdeliver.sound hs
    rw [come_of_same rfl] at hdeliver hs'
    have hover : (s.sim.state.deliver job).1.decided = s.sim.state.decided ++ [job.caller] :=
      List.map_append ..
    have hgoOn := Step.goOn (s := { s with sim := s.simAfter (s.sim.state.deliver job) }) hi
      (hover ▸ List.mem_append_right _ (List.mem_singleton_self _))
    refine ⟨_, (Relation.ReflTransGen.single hdeliver).tail hgoOn, ?_, fun c hc => ?_⟩
    · rw [← Option.some.inj heq, Workshop.finish_eq]
      simp only [come, watch, simAfter, Simulation.record, List.map_nil, List.append_nil]
    · have hleft := (hs'.orderly.goOn (Shift.simAfter
        { s with sim := s.simAfter (s.sim.state.deliver job) }
        ((s.sim.state.deliver job).1.goOn i, [])) hi rfl rfl).2.1
      refine hleft.symm ▸ ?_
      rcases List.mem_append.1 (hover ▸ hc : c ∈ s.sim.state.decided ++ [job.caller]) with hc | hc
      · exact List.mem_append_left _ (hp hc)
      · exact List.mem_append_right _ hc

/-- What happens in a simulation of a workshop is done in steps of a shift. There a job leaves
    as soon as it has an outcome. -/
theorem follows {w : Workshop} (hw : Workshop.new limit = .ok w)
    (h : Simulation.Reach IsNew (.start w) sim) :
    ∃ s, Reach (start w) s ∧ s.sim = sim ∧ s.Prompt := by
  induction h with
  | refl =>
    refine ⟨start w, .refl, rfl, fun c hc => ?_⟩
    exact absurd ((sound_start hw).honest.decided hc) List.not_mem_nil
  | tail _ hstep ih =>
    obtain ⟨s, hreach, rfl, hp⟩ := ih
    have hs := hreach.sound (sound_start hw)
    have hvisit : ∀ {s'}, Visit s s' → ∃ t, Reach (start w) t ∧ t.sim = s'.sim ∧ t.Prompt :=
      fun hvisit => ⟨_, hreach.tail (.visit hvisit), rfl,
        (hvisit.effect hs.distinct hs.attended.waits).1.prompt hp⟩
    cases hstep with
    | act a => exact hvisit (.act a)
    | @call name c hc =>
      cases c with
      | submit span panics => exact hvisit (.submit name span panics)
      | join => exact absurd rfl hc
      | idle => exact hvisit (.await name)
    | withdraw h => exact hvisit (.withdraw h)
    | poll h => exact hvisit (.poll h)
    | work h =>
      obtain ⟨s', hreach', hsim, hp'⟩ := steps_work hs hp h
      exact ⟨s', hreach.trans hreach', hsim, hp'⟩
    | wait ms => exact hvisit (.wait ms)

/-! ## The runner -/

/-- However jobs are submitted, begin and end, and whoever gives up waiting: no more than
    `limit` jobs are worked on, and none waits unless so many are; jobs are admitted in the order
    in which they were submitted, each of them once; the counts are those of the jobs that are
    admitted and have not left, and of those that are not admitted; every handle is dropped,
    waits, or has resolved with the outcome of its own job, which is that it broke off exactly if
    it did, and one that waits resolves as soon as the job is over; whoever has an outcome can
    go, broken off or not, and makes room for the next one; and that nothing is left to do is
    only told where every job is over and has left. -/
theorem runs_in_order {w : Workshop} (hw : Workshop.new limit = .ok w) (h : Reach (start w) s) :
    s.sim.state.runner.running.length ≤ limit ∧
    (s.sim.state.runner.queue ≠ [] → s.sim.state.runner.running.length = limit) ∧
    (s.submitted.map (·.caller)).Nodup ∧
    s.admitted ++ s.sim.state.waiting = s.submitted.map (·.caller) ∧
    s.sim.state.runner.running.length = (s.admitted.filter (· ∉ s.left)).length ∧
    s.sim.state.runner.queue.length =
      ((s.submitted.map (·.caller)).filter (· ∉ s.admitted)).length ∧
    (∀ job ∈ s.submitted,
      ((job.caller, Call.join) ∈ s.sim.calls ∨ job.caller ∈ s.dropped ∨
        .joined job.caller job.outcome ∈ s.sim.log.map (·.2)) ∧
      (∀ outcome, .joined job.caller outcome ∈ s.sim.log.map (·.2) → outcome = job.outcome) ∧
      (job.outcome = .error .taskPanicked ↔ job.panics = true) ∧
      ((job.caller, Call.join) ∈ s.sim.calls → job.caller ∈ s.sim.state.decided →
        ∃ sim, s.sim.poll job.caller = some sim ∧
          s.happened (s.watch sim) = [.joined job.caller job.outcome])) ∧
    (∀ (i : Nat) (job : Job), s.sim.state.runner.running[i]? = some job →
      job.caller ∈ s.sim.state.decided → ∃ s', Step s s' ∧ s'.left = s.left ++ [job.caller] ∧
        s'.admitted = s.admitted ++ s.sim.state.waiting.take 1) ∧
    ∀ (s' : Shift) (caller : Caller), Step s s' → .idle caller ∈ s.happened s' →
      ∀ job ∈ s'.submitted, job.caller ∈ s'.left ∧ job.caller ∈ s'.sim.state.decided := by
  have hs := h.sound (sound_start hw)
  refine ⟨hs.orderly.bound, hs.orderly.busy, hs.orderly.nodup, hs.orderly.inLine,
    hs.length_running, hs.length_queue, fun job hjob => ?_, fun i job hi hover => ?_,
    fun s' caller hstep hidle job hjob => ?_⟩
  · refine ⟨?_, fun _ => hs.eq_outcome_of_joined hjob, job.outcome_eq_error_iff,
      fun hwait => (hs.poll_join hjob hwait).2⟩
    rcases hs.attended.handles job hjob with hwait | hdrop | ⟨outcome, hjoined⟩
    · exact .inl hwait
    · exact .inr (.inl hdrop)
    · exact .inr (.inr (hs.eq_outcome_of_joined hjob hjoined ▸ hjoined))
  · obtain ⟨-, hleft, hadmitted⟩ :=
      hs.orderly.goOn (s.simAfter (s.sim.state.goOn i, [])) hi rfl rfl
    exact ⟨_, .goOn hi hover, hleft, hadmitted⟩
  · have hleft : job.caller ∈ s'.left :=
      (hstep.idle hs hidle).mem_iff.2 (List.mem_map_of_mem hjob)
    exact ⟨hleft, (hstep.sound hs).honest.left hleft⟩

/-- One job has broken off, and another waits for its place. -/
theorem runs_in_order_brokenOff :
    let s₀ := start ⟨⟨1, [], []⟩, [], []⟩
    let s₁ := s₀.submit "first" none true
    let s₂ := s₁.submit "second" none false
    let job := s₀.nextJob "first" none true
    let s₃ := s₂.come (s₂.sim.state.begin s₂.sim.moment 0 job)
    let s := s₃.come (s₃.sim.state.deliver { job with stage := .gated })
    s.sim.state.runner.queue.length = 1 ∧ s.sim.state.runner.running.length = 1 ∧
      (∃ sim, s.sim.poll job.caller = some sim ∧
        s.happened (s.watch sim) = [.joined job.caller (.error .taskPanicked)]) ∧
      ∃ s', Step s s' ∧ s'.admitted = [⟨"first", 0⟩, ⟨"second", 1⟩] := by
  intro s₀ s₁ s₂ job s₃ s
  have hreach : Reach s₀ s := by
    have h₁ : Reach s₀ s₁ := .single (.visit (.submit ..))
    have h₂ : Reach s₀ s₂ := h₁.tail (.visit (.submit ..))
    have h₃ : Reach s₀ s₃ := h₂.tail (.begin (i := 0) rfl rfl)
    exact h₃.tail (.deliver (i := 0) rfl (by decide) (by decide))
  have hnew : Workshop.new 1 = .ok ⟨⟨1, [], []⟩, [], []⟩ := rfl
  obtain ⟨-, hbusy, -, -, -, -, hhandles, hroom, -⟩ := runs_in_order hnew hreach
  have hjob : job ∈ s.submitted := by decide
  obtain ⟨s', hstep, -, hadmitted⟩ := hroom 0 { job with stage := .gated } rfl (by decide)
  exact ⟨rfl, hbusy (by decide), (hhandles job hjob).2.2.2 (by decide) (by decide), s', hstep,
    hadmitted⟩

end ConsensusCore.Runner.Shift
