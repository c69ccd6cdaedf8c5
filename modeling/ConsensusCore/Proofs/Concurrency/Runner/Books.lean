import ConsensusCore.Proofs.Concurrency.Runner.Shift

/-!
# The books of a workshop

Three records say what holds at any moment of a shift: jobs are where the books say
(`Orderly`), outcomes are those of jobs and are what callers are told (`Honest`), and no
handle is lost (`Attended`). Each kind of step keeps each of them.

* `Orderly.submit`, `Orderly.goOn`: the two places where a job can be admitted keep the limit,
  the order and the books;
* `Step.sound`, `Reach.sound`: a step keeps everything, and so does whatever happens.
-/

namespace ConsensusCore.Runner.Shift

variable {s s' : Shift} {sim : Simulation Workshop Call Event} {caller : Caller} {job : Job}
  {i limit : Nat}

/-! ## Who comes and who goes -/

section Lists

variable {α : Type} [DecidableEq α] {l old new before after : List α}

theorem filter_notMem_eq_nil (h : l ⊆ old) : l.filter (· ∉ old) = [] :=
  List.filter_eq_nil_iff.2 fun y hy => by simpa using h hy

/-- Some that were not there before, among others that were. -/
theorem filter_notMem_middle (hnew : ∀ x ∈ new, x ∉ old) (hbefore : before ⊆ old)
    (hafter : after ⊆ old) : (before ++ new ++ after).filter (· ∉ old) = new := by
  rw [List.filter_append, List.filter_append, filter_notMem_eq_nil hbefore,
    filter_notMem_eq_nil hafter, List.filter_eq_self.2 fun x hx => by simpa using hnew x hx,
    List.nil_append, List.append_nil]

end Lists

theorem workers_update (w : Workshop) (hi : w.runner.running[i]? = some job) (stage : Stage) :
    Workshop.workers { w with runner := w.runner.update i { job with stage } } = w.workers := by
  obtain ⟨before, after, hrunning, hupdate⟩ := update_eq hi { job with stage }
  rw [Workshop.workers, Workshop.workers, hupdate, hrunning, List.map_append, List.map_append,
    List.map_cons, List.map_cons]

theorem left_watch_of_subset (h : s.sim.state.workers ⊆ sim.state.workers) :
    (s.watch sim).left = s.left := by
  rw [watch, filter_notMem_eq_nil h, List.append_nil]

/-- Jobs are where the books say: those that have been submitted either are admitted, in this
    order, or wait, and those that are admitted either are worked on or have left. -/
structure Orderly (limit : Nat) (s : Shift) : Prop where
  limit_eq : s.sim.state.runner.limit = limit
  bound : s.sim.state.runner.running.length ≤ limit
  busy : s.sim.state.runner.queue ≠ [] → s.sim.state.runner.running.length = limit
  number : ∀ job ∈ s.submitted, job.caller.number < s.sim.nextCall
  nodup : (s.submitted.map (·.caller)).Nodup
  inLine : s.admitted ++ s.sim.state.waiting = s.submitted.map (·.caller)
  placed : (s.sim.state.workers ++ s.left).Perm s.admitted
  jobs : (s.sim.state.runner.running ++ s.sim.state.runner.queue).map Job.asSubmitted ⊆ s.submitted

namespace Orderly

/-- Everybody is in one place. -/
theorem places (h : s.Orderly limit) :
    (s.sim.state.workers ++ s.left ++ s.sim.state.waiting).Nodup := by
  have hperm := h.placed.append_right s.sim.state.waiting
  rw [h.inLine] at hperm
  exact hperm.nodup_iff.2 h.nodup

theorem admitted_of_worker (h : s.Orderly limit) (hc : caller ∈ s.sim.state.workers) :
    caller ∈ s.admitted := h.placed.subset (List.mem_append_left _ hc)

/-- Those who are admitted have submitted a job. -/
theorem admitted_subset (h : s.Orderly limit) : s.admitted ⊆ s.submitted.map (·.caller) :=
  h.inLine ▸ List.subset_append_left ..

/-- Nothing to write down for a step that keeps the runner. -/
theorem quiet (h : s.Orderly limit) (sim : Simulation Workshop Call Event)
    (hrunner : sim.state.runner = s.sim.state.runner) (hnext : s.sim.nextCall ≤ sim.nextCall)
    (dropped : List Caller) : Orderly limit { s.watch sim with dropped } := by
  have hworkers : sim.state.workers = s.sim.state.workers :=
    congrArg (·.running.map (·.caller)) hrunner
  have hwaiting : sim.state.waiting = s.sim.state.waiting :=
    congrArg (·.queue.map (·.caller)) hrunner
  rw [watch_of_same hworkers]
  exact {
    limit_eq := hrunner ▸ h.limit_eq
    bound := hrunner ▸ h.bound
    busy := hrunner ▸ h.busy
    number := fun job hjob => Nat.lt_of_lt_of_le (h.number job hjob) hnext
    nodup := h.nodup
    inLine := hwaiting ▸ h.inLine
    placed := hworkers ▸ h.placed
    jobs := hrunner ▸ h.jobs }

/-- The jobs that are worked on or wait are submitted ones, with one more. -/
theorem jobs_submitted (h : s.Orderly limit) (hstage : job.stage = .submitted) :
    (s.sim.state.runner.running ++ s.sim.state.runner.queue ++ [job]).map Job.asSubmitted ⊆
      s.submitted ++ [job] := by
  have hsame : job.asSubmitted = job := by rw [Job.asSubmitted, ← hstage]
  rw [List.map_append, List.map_singleton, hsame]
  exact List.append_subset.2
    ⟨List.subset_append_of_subset_left _ h.jobs, List.subset_append_right ..⟩

theorem not_mem_submitted (h : s.Orderly limit) (hnumber : caller.number = s.sim.nextCall) :
    caller ∉ s.submitted.map (·.caller) := by
  intro hmem
  obtain ⟨job, hjob, rfl⟩ := List.mem_map.1 hmem
  exact absurd (h.number job hjob) (hnumber ▸ Nat.lt_irrefl _)

theorem nodup_submitted (h : s.Orderly limit) (hnumber : job.caller.number = s.sim.nextCall) :
    ((s.submitted ++ [job]).map (·.caller)).Nodup := by
  rw [List.map_append, List.map_singleton, ← List.concat_eq_append]
  exact h.nodup.concat (h.not_mem_submitted hnumber)

theorem number_submitted (h : s.Orderly limit) (hnumber : job.caller.number = s.sim.nextCall) :
    ∀ job' ∈ s.submitted ++ [job], job'.caller.number < s.sim.nextCall + 1 := by
  intro job' hjob'
  rcases List.mem_append.1 hjob' with hjob' | hjob'
  · exact Nat.lt_succ_of_lt (h.number job' hjob')
  · rw [List.mem_singleton.1 hjob', hnumber]
    exact Nat.lt_succ_self _

/-- A job is submitted where there is room, so that nobody waits: it is admitted. -/
theorem takeOn (h : s.Orderly limit) (hstage : job.stage = .submitted)
    (hnumber : job.caller.number = s.sim.nextCall)
    (hroom : s.sim.state.runner.running.length < s.sim.state.runner.limit)
    (hrunner : sim.state.runner = s.sim.state.runner.submit job)
    (hnext : sim.nextCall = s.sim.nextCall + 1) :
    Orderly limit { s.watch sim with submitted := s.submitted ++ [job] } := by
  have hbound := length_running_submit (h.limit_eq.symm ▸ h.bound) job
  rw [← hrunner] at hbound
  replace hrunner : sim.state.runner = { s.sim.state.runner with
    running := s.sim.state.runner.running ++ [job] } := hrunner.trans (if_pos hroom)
  have hlimit : sim.state.runner.limit = limit := by rw [hrunner, ← h.limit_eq]
  have hqueue : s.sim.state.runner.queue = [] := by
    by_contra hne
    have hbusy := h.busy hne
    rw [h.limit_eq, hbusy] at hroom
    exact Nat.lt_irrefl _ hroom
  have hworkers : sim.state.workers = s.sim.state.workers ++ [job.caller] := by
    rw [Workshop.workers, hrunner, List.map_append, List.map_singleton, Workshop.workers]
  have hnew : job.caller ∉ s.sim.state.workers := fun hmem =>
    h.not_mem_submitted hnumber (h.admitted_subset (h.admitted_of_worker hmem))
  have hwatch : s.watch sim = { s with sim, admitted := s.admitted ++ [job.caller] } := by
    rw [watch, hworkers, filter_notMem_eq_nil (List.subset_append_left ..), List.append_nil,
      ← List.append_nil (s.sim.state.workers ++ [job.caller]),
      filter_notMem_middle (by simpa using hnew) (List.Subset.refl _) (List.nil_subset _)]
  have hline : s.admitted = s.submitted.map (·.caller) := by
    rw [← h.inLine, Workshop.waiting, hqueue, List.map_nil, List.append_nil]
  rw [hwatch]
  refine ⟨hlimit, hlimit ▸ hbound, ?_, hnext ▸ h.number_submitted hnumber,
    h.nodup_submitted hnumber, ?_, ?_, ?_⟩ <;> dsimp only
  · rw [hrunner, hqueue]
    exact fun hne => absurd rfl hne
  · rw [Workshop.waiting, hrunner, hqueue, hline, List.map_nil, List.append_nil, List.map_append,
      List.map_singleton]
  · rw [hworkers, List.append_assoc]
    have hcomm : ([job.caller] ++ s.left).Perm (s.left ++ [job.caller]) := List.perm_append_comm
    exact (hcomm.append_left _).trans (List.append_assoc .. ▸ h.placed.append_right _)
  · have hjobs := h.jobs_submitted hstage
    rw [hqueue, List.append_nil] at hjobs
    rwa [hrunner, hqueue, List.append_nil]

/-- A job is submitted where there is no room: it waits. -/
theorem enqueue (h : s.Orderly limit) (hstage : job.stage = .submitted)
    (hnumber : job.caller.number = s.sim.nextCall)
    (hfull : s.sim.state.runner.limit ≤ s.sim.state.runner.running.length)
    (hrunner : sim.state.runner = s.sim.state.runner.submit job)
    (hnext : sim.nextCall = s.sim.nextCall + 1) :
    Orderly limit { s.watch sim with submitted := s.submitted ++ [job] } := by
  replace hrunner : sim.state.runner = { s.sim.state.runner with
    queue := s.sim.state.runner.queue ++ [job] } := hrunner.trans (if_neg (Nat.not_lt.2 hfull))
  have hworkers : sim.state.workers = s.sim.state.workers := by
    rw [Workshop.workers, hrunner, Workshop.workers]
  rw [watch_of_same hworkers]
  refine ⟨?_, ?_, ?_, hnext ▸ h.number_submitted hnumber, h.nodup_submitted hnumber, ?_, ?_, ?_⟩ <;>
    dsimp only
  · rw [hrunner, ← h.limit_eq]
  · rw [hrunner]
    exact h.bound
  · intro _
    rw [hrunner]
    exact Nat.le_antisymm h.bound (h.limit_eq ▸ hfull)
  · rw [Workshop.waiting, hrunner, List.map_append, List.map_append, ← h.inLine, List.append_assoc]
    rfl
  · rw [hworkers]
    exact h.placed
  · rw [hrunner, ← List.append_assoc]
    exact h.jobs_submitted hstage

theorem submit (h : s.Orderly limit) (hstage : job.stage = .submitted)
    (hnumber : job.caller.number = s.sim.nextCall)
    (hrunner : sim.state.runner = s.sim.state.runner.submit job)
    (hnext : sim.nextCall = s.sim.nextCall + 1) :
    Orderly limit { s.watch sim with submitted := s.submitted ++ [job] } := by
  rcases Nat.lt_or_ge s.sim.state.runner.running.length s.sim.state.runner.limit with hroom | hfull
  · exact h.takeOn hstage hnumber hroom hrunner hnext
  · exact h.enqueue hstage hnumber hfull hrunner hnext

/-- A job begins. -/
theorem begin {stage : Stage} (h : s.Orderly limit)
    (hi : s.sim.state.runner.running[i]? = some job)
    (hrunner : sim.state.runner = s.sim.state.runner.update i { job with stage })
    (hnext : sim.nextCall = s.sim.nextCall) : (s.watch sim).Orderly limit := by
  obtain ⟨before, after, hrunning, hupdate⟩ := update_eq hi { job with stage }
  rw [hupdate] at hrunner
  have hlength : sim.state.runner.running.length = s.sim.state.runner.running.length := by
    rw [hrunner, hrunning, List.length_append, List.length_append, List.length_cons,
      List.length_cons]
  have hworkers : sim.state.workers = s.sim.state.workers := by
    rw [← workers_update s.sim.state hi stage, Workshop.workers, Workshop.workers, hrunner, hupdate]
  rw [watch_of_same hworkers]
  refine ⟨?_, hlength ▸ h.bound, ?_, hnext ▸ h.number, h.nodup, ?_, hworkers ▸ h.placed, ?_⟩ <;>
    dsimp only
  · rw [hrunner, ← h.limit_eq]
  · rw [hlength, hrunner]
    exact h.busy
  · rw [Workshop.waiting, hrunner]
    exact h.inLine
  · have hjobs := h.jobs
    rw [hrunning, List.map_append, List.map_append, List.map_cons] at hjobs
    rwa [hrunner, List.map_append, List.map_append, List.map_cons]

/-- The worker of a job goes on with the job that has waited longest, if any has. -/
theorem goOn (h : s.Orderly limit) (sim : Simulation Workshop Call Event)
    (hi : s.sim.state.runner.running[i]? = some job)
    (hrunner : sim.state.runner = s.sim.state.runner.finish i)
    (hnext : sim.nextCall = s.sim.nextCall) :
    (s.watch sim).Orderly limit ∧ (s.watch sim).left = s.left ++ [job.caller] ∧
      (s.watch sim).admitted = s.admitted ++ s.sim.state.waiting.take 1 := by
  obtain ⟨before, after, hrunning, hfinish⟩ := finish_eq hi
  have hbound := length_running_finish (h.limit_eq.symm ▸ h.bound) i
  rw [← hrunner] at hbound
  rw [hfinish] at hrunner
  have hlimit : sim.state.runner.limit = limit := by rw [hrunner, ← h.limit_eq]
  have hwas : s.sim.state.workers =
      before.map (·.caller) ++ [job.caller] ++ after.map (·.caller) := by
    rw [Workshop.workers, hrunning, List.map_append, List.map_append, List.map_singleton]
  have his : sim.state.workers =
      before.map (·.caller) ++ s.sim.state.waiting.take 1 ++ after.map (·.caller) := by
    rw [Workshop.workers, hrunner, List.map_append, List.map_append, List.map_take,
      Workshop.waiting]
  have hwaiting : s.sim.state.waiting = s.sim.state.waiting.take 1 ++ sim.state.waiting := by
    rw [Workshop.waiting, Workshop.waiting, hrunner, ← List.map_take, ← List.map_append,
      ← List.drop_one, List.take_append_drop]
  have hplaces := h.places
  rw [hwas, hwaiting] at hplaces
  have hnew : ∀ c ∈ s.sim.state.waiting.take 1, c ∉ s.sim.state.workers := by
    intro c hc hmem
    rw [hwas] at hmem
    exact List.disjoint_of_nodup_append hplaces (List.mem_append_left _ hmem)
      (List.mem_append_left _ hc)
  have hgone : ∀ c ∈ [job.caller], c ∉ sim.state.workers := by
    rw [his]
    simp only [List.mem_singleton, forall_eq]
    grind
  have hsides : ∀ new,
      before.map (·.caller) ⊆ before.map (·.caller) ++ new ++ after.map (·.caller) ∧
      after.map (·.caller) ⊆ before.map (·.caller) ++ new ++ after.map (·.caller) := fun _ =>
    ⟨List.subset_append_of_subset_left _ (List.subset_append_left ..), List.subset_append_right ..⟩
  have henter : sim.state.workers.filter (· ∉ s.sim.state.workers) =
      s.sim.state.waiting.take 1 := by
    rw [his]
    exact filter_notMem_middle hnew (hwas ▸ (hsides _).1) (hwas ▸ (hsides _).2)
  have hleave : s.sim.state.workers.filter (· ∉ sim.state.workers) = [job.caller] := by
    rw [hwas]
    exact filter_notMem_middle hgone (his ▸ (hsides _).1) (his ▸ (hsides _).2)
  have hwatch : s.watch sim = { s with
      sim
      admitted := s.admitted ++ s.sim.state.waiting.take 1
      left := s.left ++ [job.caller] } := by
    rw [watch, hleave, henter]
  rw [hwatch]
  refine ⟨⟨hlimit, hlimit ▸ hbound, ?_, hnext ▸ h.number, h.nodup, ?_, ?_, ?_⟩, rfl, rfl⟩ <;>
    dsimp only
  · intro hne
    rw [hrunner] at hne ⊢
    -- the one who takes over is not the only one who waits
    have hwait : 0 < s.sim.state.runner.queue.length := by
      have := List.length_pos_iff.2 hne
      rw [List.length_tail] at this
      omega
    have hbusy := h.busy (List.length_pos_iff.1 hwait)
    rw [hrunning] at hbusy
    simp only [List.length_append, List.length_take, List.length_singleton] at hbusy ⊢
    omega
  · rw [← h.inLine, List.append_assoc, ← hwaiting]
  · have hplaced := h.placed
    rw [hwas] at hplaced
    rw [his]
    refine List.perm_iff_count.2 fun c => ?_
    have hcount := hplaced.count_eq c
    simp only [List.count_append] at hcount ⊢
    omega
  · have hjobs := h.jobs
    rw [hrunning] at hjobs
    rw [hrunner]
    refine List.Subset.trans (List.map_subset _ fun job' hjob' => ?_) hjobs
    simp only [List.mem_append] at hjob' ⊢
    rcases hjob' with ((hjob' | hjob') | hjob') | hjob'
    · exact .inl (.inl (.inl hjob'))
    · exact .inr (List.mem_of_mem_take hjob')
    · exact .inl (.inr hjob')
    · exact .inr (List.mem_of_mem_tail hjob')

end Orderly

/-! ## What callers are told -/

/-- Outcomes are those of jobs that have been submitted and admitted, and so is what callers
    have been told. Nobody leaves without one. -/
structure Honest (s : Shift) : Prop where
  own : ∀ e ∈ s.sim.state.outcomes, ∃ job ∈ s.submitted, job.caller = e.1 ∧ e.2 = job.outcome
  decided : s.sim.state.decided ⊆ s.admitted
  left : s.left ⊆ s.sim.state.decided
  joined : ∀ e ∈ s.sim.log, ∀ caller outcome, e.2 = .joined caller outcome →
    ∃ job ∈ s.submitted, job.caller = caller ∧ outcome = job.outcome

namespace Honest

/-- A step after which there is nothing but what there was before, or what callers may be
    told. -/
theorem extend (h : s.Honest) (hsubmitted : s.submitted ⊆ s'.submitted)
    (hadmitted : s.admitted ⊆ s'.admitted)
    (houtcomes : s'.sim.state.outcomes = s.sim.state.outcomes)
    (hleft : s'.left ⊆ s.sim.state.decided)
    (hlog : ∀ e ∈ s'.sim.log, e ∈ s.sim.log ∨ ∀ caller outcome, e.2 = .joined caller outcome →
      s.sim.state.outcomes.lookup caller = some outcome) : s'.Honest := by
  have hover : s'.sim.state.decided = s.sim.state.decided := congrArg (·.map (·.1)) houtcomes
  have hown : ∀ e ∈ s.sim.state.outcomes,
      ∃ job ∈ s'.submitted, job.caller = e.1 ∧ e.2 = job.outcome := by
    intro e he
    obtain ⟨job, hjob, hjob'⟩ := h.own e he
    exact ⟨job, hsubmitted hjob, hjob'⟩
  refine ⟨houtcomes ▸ hown, hover ▸ List.Subset.trans h.decided hadmitted, hover ▸ hleft, ?_⟩
  intro e he caller outcome hjoined
  rcases hlog e he with hold | htold
  · obtain ⟨job, hjob, hjob'⟩ := h.joined e hold caller outcome hjoined
    exact ⟨job, hsubmitted hjob, hjob'⟩
  · exact hown (caller, outcome) (mem_of_lookup (htold caller outcome hjoined))

theorem submit (h : s.Honest) (hrunner : sim.state.runner = s.sim.state.runner.submit job)
    (houtcomes : sim.state.outcomes = s.sim.state.outcomes) (hlog : sim.log = s.sim.log) :
    Honest { s.watch sim with submitted := s.submitted ++ [job] } := by
  have hleft : (s.watch sim).left = s.left := by
    refine left_watch_of_subset ?_
    rw [Workshop.workers, Workshop.workers, hrunner]
    rcases s.sim.state.runner.submit_cases job with ⟨-, heq⟩ | ⟨-, heq⟩ <;> rw [heq]
    · rw [List.map_append]
      exact List.subset_append_left ..
    · exact List.Subset.refl _
  exact h.extend (List.subset_append_left ..) (List.subset_append_left ..) houtcomes
    (hleft ▸ h.left) fun e he => .inl (hlog ▸ he)

theorem deliver (h : s.Honest) (ho : s.Orderly limit)
    (hi : s.sim.state.runner.running[i]? = some job) :
    (s.come (s.sim.state.deliver job)).Honest := by
  have hmem : job ∈ s.sim.state.runner.running := List.mem_of_getElem? hi
  have hsubmitted : job.asSubmitted ∈ s.submitted :=
    ho.jobs (List.mem_map_of_mem (List.mem_append_left _ hmem))
  rw [come_of_same rfl]
  refine ⟨fun e he => ?_, ?_, ?_, fun e he caller outcome hjoined => ?_⟩
  · rcases List.mem_append.1 he with he | he
    · exact h.own e he
    · rw [List.mem_singleton.1 he]
      exact ⟨_, hsubmitted, rfl, rfl⟩
  · have hover : (s.sim.state.deliver job).1.decided = s.sim.state.decided ++ [job.caller] :=
      List.map_append ..
    exact hover ▸ List.append_subset.2 ⟨h.decided, List.cons_subset.2
      ⟨ho.admitted_of_worker (List.mem_map_of_mem hmem), List.nil_subset _⟩⟩
  · exact List.Subset.trans h.left (List.map_subset _ (List.subset_append_left ..))
  · rcases List.mem_append.1 he with he | he
    · exact h.joined e he caller outcome hjoined
    · obtain ⟨event, hevent, rfl⟩ := List.mem_map.1 he
      simp only [Workshop.deliver] at hevent
      split at hevent
      · exact absurd hevent List.not_mem_nil
      · rw [List.mem_singleton.1 hevent] at hjoined
        cases hjoined

theorem quiet {events : List Event} {dropped : List Caller} (h : s.Honest)
    (hrunner : sim.state.runner = s.sim.state.runner)
    (houtcomes : sim.state.outcomes = s.sim.state.outcomes)
    (hlog : sim.log = s.sim.log ++ events.map (s.sim.now, ·))
    (htold : ∀ event ∈ events, s.Told event) : Honest { s.watch sim with dropped } := by
  rw [watch_of_same (congrArg (·.running.map (·.caller)) hrunner)]
  refine h.extend (List.Subset.refl _) (List.Subset.refl _) houtcomes h.left fun e he => ?_
  rcases List.mem_append.1 (hlog ▸ he : e ∈ s.sim.log ++ _) with he | he
  · exact .inl he
  · obtain ⟨event, hevent, rfl⟩ := List.mem_map.1 he
    refine .inr fun caller outcome hjoined => ?_
    cases hjoined
    rcases htold _ hevent with hlookup | -
    exact hlookup

theorem begin {stage : Stage} (h : s.Honest) (hi : s.sim.state.runner.running[i]? = some job) :
    Honest (s.come
      ({ s.sim.state with runner := s.sim.state.runner.update i { job with stage } },
        [.started job.caller])) := by
  have hsame := workers_update s.sim.state hi stage
  rw [come_of_same hsame]
  refine h.extend (List.Subset.refl _) (List.Subset.refl _) rfl h.left fun e he => ?_
  rcases List.mem_append.1 he with he | he
  · exact .inl he
  · refine .inr fun caller outcome hjoined => ?_
    rw [List.mem_singleton.1 he] at hjoined
    cases hjoined

theorem goOn (h : s.Honest) (ho : s.Orderly limit)
    (hi : s.sim.state.runner.running[i]? = some job) (hover : job.caller ∈ s.sim.state.decided) :
    Honest (s.come (s.sim.state.goOn i, [])) := by
  have hleft := (ho.goOn (s.simAfter (s.sim.state.goOn i, [])) hi rfl rfl).2.1
  refine h.extend (List.Subset.refl _) (List.subset_append_left ..) rfl ?_ fun e he =>
    .inl (List.append_nil s.sim.log ▸ he)
  exact hleft ▸ List.append_subset.2 ⟨h.left, List.cons_subset.2 ⟨hover, List.nil_subset _⟩⟩

end Honest

/-- Who waits has a reason to, and no handle is lost: it waits, has been dropped, or its caller
    has been told. -/
structure Attended (s : Shift) : Prop where
  waits : s.Waits
  handles : ∀ job ∈ s.submitted, (job.caller, Call.join) ∈ s.sim.calls ∨ job.caller ∈ s.dropped ∨
    ∃ outcome, .joined job.caller outcome ∈ s.sim.log.map (·.2)

namespace Attended

/-- A step in which nobody comes or goes. -/
theorem extend (h : s.Attended) (hsubmitted : s'.submitted = s.submitted)
    (hcalls : s'.sim.calls = s.sim.calls) (hdropped : s'.dropped = s.dropped)
    (hlog : s.sim.log ⊆ s'.sim.log) : s'.Attended := by
  refine ⟨fun e he => hsubmitted ▸ h.waits e (hcalls ▸ he), fun job hjob => ?_⟩
  rw [hcalls, hdropped]
  rcases h.handles job (hsubmitted ▸ hjob) with hwait | hdrop | ⟨outcome, hjoined⟩
  · exact .inl hwait
  · exact .inr (.inl hdrop)
  · exact .inr (.inr ⟨outcome, List.map_subset _ hlog hjoined⟩)

theorem submit (h : s.Attended) (hcalls : sim.calls = s.sim.calls ++ [(job.caller, .join)])
    (hlog : sim.log = s.sim.log) :
    Attended { s.watch sim with submitted := s.submitted ++ [job] } := by
  refine ⟨fun e he => ?_, fun job' hjob' => ?_⟩ <;> dsimp only [watch] at *
  · rw [hcalls] at he
    rcases List.mem_append.1 he with he | he
    · rcases h.waits e he with hidle | ⟨hjoin, job', hjob', heq⟩
      · exact .inl hidle
      · exact .inr ⟨hjoin, job', List.mem_append_left _ hjob', heq⟩
    · rw [List.mem_singleton.1 he]
      exact .inr ⟨rfl, job, List.mem_append_right _ (List.mem_singleton_self _), rfl⟩
  · rw [hcalls, hlog]
    rcases List.mem_append.1 hjob' with hjob' | hjob'
    · rcases h.handles job' hjob' with hwait | hdrop | hjoined
      · exact .inl (List.mem_append_left _ hwait)
      · exact .inr (.inl hdrop)
      · exact .inr (.inr hjoined)
    · rw [List.mem_singleton.1 hjob']
      exact .inl (List.mem_append_right _ (List.mem_singleton_self _))

theorem quiet {events : List Event} {dropped : List Caller} (h : s.Attended)
    (hcalls : ∀ e ∈ sim.calls, e ∈ s.sim.calls ∨ e.2 = .idle)
    (hkeep : ∀ e ∈ s.sim.calls, e ∈ sim.calls ∨ e.1 ∈ dropped ∨
      (e.2 = .join → ∃ outcome, .joined e.1 outcome ∈ events))
    (hlog : sim.log = s.sim.log ++ events.map (s.sim.now, ·)) (hdropped : s.dropped ⊆ dropped) :
    Attended { s.watch sim with dropped } := by
  refine ⟨fun e he => ?_, fun job hjob => ?_⟩ <;> dsimp only [watch] at *
  · rcases hcalls e he with he | hidle
    · exact h.waits e he
    · exact .inl hidle
  · have hevents : sim.log.map (·.2) = s.sim.log.map (·.2) ++ events := by
      rw [hlog, List.map_append, List.map_map]
      exact congrArg _ (List.map_id' events)
    rw [hevents]
    rcases h.handles job hjob with hwait | hdrop | ⟨outcome, hjoined⟩
    · rcases hkeep _ hwait with hwait | hdrop | hjoined
      · exact .inl hwait
      · exact .inr (.inl hdrop)
      · obtain ⟨outcome, hjoined⟩ := hjoined rfl
        exact .inr (.inr ⟨outcome, List.mem_append_right _ hjoined⟩)
    · exact .inr (.inl (hdropped hdrop))
    · exact .inr (.inr ⟨outcome, List.mem_append_left _ hjoined⟩)

end Attended

/-! ## All that is kept -/

/-- Calls have numbers of their own, jobs are where the books say, nobody is told anything
    wrong, and nobody is forgotten. -/
structure Sound (limit : Nat) (s : Shift) : Prop where
  distinct : s.sim.Distinct
  orderly : s.Orderly limit
  honest : s.Honest
  attended : s.Attended

theorem sound_start {w : Workshop} (hw : Workshop.new limit = .ok w) : Sound limit (start w) := by
  obtain rfl : w = ⟨⟨limit, [], []⟩, [], []⟩ := by
    simp only [Workshop.new, Runner.new] at hw
    split at hw
    · cases hw
    · exact (Except.ok.inj hw).symm
  have hnothing : ∀ {α : Type} {p : α → Prop}, ∀ x ∈ ([] : List α), p x :=
    fun _ h => absurd h List.not_mem_nil
  refine ⟨Simulation.distinct_start _, ?orderly, ?honest, ⟨hnothing, hnothing⟩⟩
  case orderly =>
    exact ⟨rfl, Nat.zero_le _, fun h => absurd rfl h, hnothing, List.nodup_nil, rfl, .refl _,
      List.nil_subset _⟩
  case honest => exact ⟨hnothing, List.nil_subset _, List.nil_subset _, hnothing⟩

theorem Effect.sound (hs : s.Sound limit) (hd : s'.sim.Distinct) (h : s.Effect s') :
    s'.Sound limit := by
  obtain ⟨-, ho, hh, ha⟩ := hs
  cases h with
  | submit job hstage hnumber hrunner houtcomes hcalls hnext hlog =>
    have horderly := ho.submit hstage hnumber hrunner hnext
    exact ⟨hd, horderly, hh.submit hrunner houtcomes hlog, ha.submit hcalls hlog⟩
  | quiet events hrunner houtcomes hcalls hkeep hnext hlog htold hdropped =>
    exact ⟨hd, ho.quiet _ hrunner hnext _, hh.quiet hrunner houtcomes hlog htold,
      ha.quiet hcalls hkeep hlog hdropped⟩

theorem Step.sound (hs : s.Sound limit) (h : Step s s') : s'.Sound limit := by
  have ⟨hd, ho, hh, ha⟩ := hs
  cases h with
  | visit hvisit =>
    obtain ⟨heffect, hd'⟩ := hvisit.effect hd ha.waits
    exact heffect.sound hs hd'
  | begin hi hstage =>
    exact ⟨⟨hd.nodup, hd.lt⟩, ho.begin hi rfl rfl, hh.begin hi,
      ha.extend rfl rfl rfl (List.subset_append_left ..)⟩
  | @deliver i job hi hstage hover =>
    have horderly := ho.quiet (s.simAfter (s.sim.state.deliver job)) rfl (Nat.le_refl _) s.dropped
    exact ⟨⟨hd.nodup, hd.lt⟩, horderly, hh.deliver ho hi,
      ha.extend rfl rfl rfl (List.subset_append_left ..)⟩
  | @goOn i job hi hover =>
    have horderly := ho.goOn (s.simAfter (s.sim.state.goOn i, [])) hi rfl rfl
    exact ⟨⟨hd.nodup, hd.lt⟩, horderly.1, hh.goOn ho hi hover,
      ha.extend rfl rfl rfl (List.subset_append_left ..)⟩

/-- Whatever has happened, the books are right. -/
theorem Reach.sound (hs : s.Sound limit) (h : Reach s s') : s'.Sound limit := by
  induction h with
  | refl => exact hs
  | tail _ hstep ih => exact hstep.sound ih

end ConsensusCore.Runner.Shift
