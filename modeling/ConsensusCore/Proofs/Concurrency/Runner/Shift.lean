import ConsensusCore.Concurrency.Runner.Callers
import ConsensusCore.Proofs.Concurrency.Simulation

/-!
# Shifts of a workshop

Jobs are submitted, begin, and end in any order, and some of them break off. The end of a
job comes in two steps: its outcome is there (`Step.deliver`), and then its worker goes on,
with the job that has waited longest or without any (`Step.goOn`). Between the two anything
else may happen. Callers may give up their waits at any moment.

Books are kept of who is admitted to the work and who has left it, by looking at who is
being worked on before and after each step (`Shift.watch`).

* `submit_cases`, `update_eq`, `finish_eq`: what becomes of the jobs that are worked on;
* `Visit.effect`: what callers do comes to one of two things, a job is submitted, or callers
  come, go, and are told something.
-/

namespace ConsensusCore

namespace Runner

variable {τ : Type} {r : Runner τ} {i : Nat} {job : τ}

theorem submit_cases (r : Runner τ) (job : τ) :
    (r.running.length < r.limit ∧ r.submit job = { r with running := r.running ++ [job] }) ∨
    (r.limit ≤ r.running.length ∧ r.submit job = { r with queue := r.queue ++ [job] }) := by
  unfold submit
  split
  next h => exact .inl ⟨h, rfl⟩
  next h => exact .inr ⟨Nat.le_of_not_lt h, rfl⟩

/-- A place in a list splits it. -/
theorem split_of_getElem? {l : List τ} (h : l[i]? = some job) :
    ∃ before after, l = before ++ job :: after ∧ l.eraseIdx i = before ++ after ∧
      ∀ job', l.set i job' = before ++ job' :: after := by
  obtain ⟨hi, rfl⟩ := List.getElem?_eq_some_iff.1 h
  refine ⟨l.take i, l.drop (i + 1), ?_, List.eraseIdx_eq_take_drop_succ .., fun job' => ?_⟩
  · rw [List.getElem_cons_drop, List.take_append_drop]
  · rw [List.set_eq_take_append_cons_drop, if_pos hi]

theorem update_eq (h : r.running[i]? = some job) (job' : τ) :
    ∃ before after, r.running = before ++ job :: after ∧
      r.update i job' = { r with running := before ++ job' :: after } := by
  obtain ⟨before, after, hrunning, -, hset⟩ := split_of_getElem? h
  exact ⟨before, after, hrunning, by rw [update, hset]⟩

theorem finish_eq (h : r.running[i]? = some job) :
    ∃ before after, r.running = before ++ [job] ++ after ∧
      r.finish i =
        { r with running := before ++ r.queue.take 1 ++ after, queue := r.queue.tail } := by
  obtain ⟨before, after, hrunning, herase, hset⟩ := split_of_getElem? h
  refine ⟨before, after, by rw [hrunning, List.append_assoc, List.singleton_append], ?_⟩
  cases hqueue : r.queue with
  | nil => simp only [finish, hqueue, herase, List.take_nil, List.append_nil, List.tail_nil]
  | cons next queue => simp [finish, hqueue, hset]

namespace Job

/-- A job as it was when it was submitted. -/
def asSubmitted (job : Job) : Job := { job with stage := .submitted }

/-- What a job comes to. -/
def outcome (job : Job) : Except PrimitiveError String :=
  if job.panics then .error .taskPanicked else .ok job.caller.name

theorem outcome_eq_error_iff (job : Job) :
    job.outcome = .error .taskPanicked ↔ job.panics = true := by
  unfold outcome
  split <;> simp_all

end Job

end Runner

namespace Workshop

open Runner

/-- Those whose jobs are being worked on. -/
def workers (w : Workshop) : List Caller := w.runner.running.map (·.caller)

/-- Those whose jobs wait. -/
def waiting (w : Workshop) : List Caller := w.runner.queue.map (·.caller)

/-- Those whose jobs have an outcome. -/
def decided (w : Workshop) : List Caller := w.outcomes.map (·.1)

/-- The outcome of a job is there; its worker has not gone on. -/
def deliver (w : Workshop) (job : Job) : Workshop × List Event :=
  ({ w with outcomes := w.outcomes ++ [(job.caller, job.outcome)] },
    if job.panics then [] else [.ended job.caller])

/-- The worker of a job that has an outcome goes on. -/
def goOn (w : Workshop) (i : Nat) : Workshop := { w with runner := w.runner.finish i }

theorem finish_eq (w : Workshop) (i : Nat) (job : Job) :
    w.finish i job = ((w.deliver job).1.goOn i, (w.deliver job).2) := rfl

end Workshop

namespace Runner

/-- A workshop with its callers, and the books that are kept of it. -/
structure Shift where
  sim : Simulation Workshop Call Event
  /-- The jobs in the order in which they were submitted. -/
  submitted : List Job
  /-- Those whose jobs have been admitted to the work, in that order. -/
  admitted : List Caller
  /-- Those whose workers have gone on, in that order. -/
  left : List Caller
  /-- Those whose calls have been withdrawn. -/
  dropped : List Caller

namespace Shift

/-- A workshop in which nothing has been done. -/
def start (w : Workshop) : Shift := ⟨.start w, [], [], [], []⟩

/-- Writes down who is being worked on now and was not before, and who was and is not any
    more. -/
def watch (s : Shift) (sim : Simulation Workshop Call Event) : Shift :=
  { s with
    sim
    admitted := s.admitted ++ sim.state.workers.filter (· ∉ s.sim.state.workers)
    left := s.left ++ s.sim.state.workers.filter (· ∉ sim.state.workers) }

/-- Some calls are withdrawn. -/
def drop (s : Shift) (sim : Simulation Workshop Call Event) : Shift :=
  { s.watch sim with
    dropped := s.dropped ++ (s.sim.calls.map (·.1)).filter (· ∉ sim.calls.map (·.1)) }

/-- The job that the next call submits. -/
def nextJob (s : Shift) (name : String) (span : Option Duration) (panics : Bool) : Job :=
  ⟨⟨name, s.sim.nextCall⟩, span, panics, .submitted⟩

def submit (s : Shift) (name : String) (span : Option Duration) (panics : Bool) : Shift :=
  { s.watch (s.sim.call name (.submit span panics)).2 with
    submitted := s.submitted ++ [s.nextJob name span panics] }

/-- The simulation after the workshop has come to a state, and something has happened. -/
def simAfter (s : Shift) (r : Workshop × List Event) : Simulation Workshop Call Event :=
  { s.sim with state := r.1 }.record r.2

def come (s : Shift) (r : Workshop × List Event) : Shift := s.watch (s.simAfter r)

/-- What can happen from outside: a job is submitted, somebody waits for nothing to be left
    to do, a call is polled or withdrawn, something is done, or time passes. -/
inductive Visit (s : Shift) : Shift → Prop
  | submit (name : String) (span : Option Duration) (panics : Bool) :
    Visit s (s.submit name span panics)
  | await (name : String) : Visit s (s.watch (s.sim.call name .idle).2)
  | poll {caller : Caller} {sim : Simulation Workshop Call Event} :
    s.sim.poll caller = some sim → Visit s (s.watch sim)
  | withdraw {name : String} {sim : Simulation Workshop Call Event} :
    s.sim.withdraw? name = some sim → Visit s (s.drop sim)
  | act (a : Action) : Visit s (s.watch (s.sim.act a).2)
  | wait (ms : Nat) : Visit s (s.watch { s.sim with now := s.sim.now + ms })

/-- What can happen next. -/
inductive Step (s : Shift) : Shift → Prop
  | visit {s' : Shift} : Visit s s' → Step s s'
  | begin {i : Nat} {job : Job} : s.sim.state.runner.running[i]? = some job →
    job.stage = .submitted → Step s (s.come (s.sim.state.begin s.sim.moment i job))
  | deliver {i : Nat} {job : Job} : s.sim.state.runner.running[i]? = some job →
    job.stage ≠ .submitted → job.caller ∉ s.sim.state.decided →
    Step s (s.come (s.sim.state.deliver job))
  | goOn {i : Nat} {job : Job} : s.sim.state.runner.running[i]? = some job →
    job.caller ∈ s.sim.state.decided → Step s (s.come (s.sim.state.goOn i, []))

/-- What can have happened after any number of steps. -/
abbrev Reach : Shift → Shift → Prop := Relation.ReflTransGen Step

/-- What has happened from one state to another. -/
def happened (s s' : Shift) : List Event := (s'.sim.log.drop s.sim.log.length).map (·.2)

variable {s s' : Shift} {sim : Simulation Workshop Call Event} {caller : Caller} {job : Job}
  {i : Nat} {name : String}

/-- Where the same ones are being worked on, there is nothing to write down. -/
theorem watch_of_same (h : sim.state.workers = s.sim.state.workers) :
    s.watch sim = { s with sim } := by
  have hnobody : ∀ callers : List Caller, callers.filter (· ∉ callers) = [] := fun callers =>
    List.filter_eq_nil_iff.2 fun c hc => by simpa using hc
  simp only [watch, h, hnobody, List.append_nil]

theorem come_of_same {r : Workshop × List Event} (h : r.1.workers = s.sim.state.workers) :
    s.come r = { s with sim := s.simAfter r } :=
  watch_of_same h

/-! ## Visits -/

/-- What may be told to a caller. -/
inductive Told (s : Shift) : Event → Prop
  | joined {caller : Caller} {outcome : Except PrimitiveError String} :
    s.sim.state.outcomes.lookup caller = some outcome → Told s (.joined caller outcome)
  | idle {caller : Caller} : s.sim.state.runner.idle = true → Told s (.idle caller)

/-- Those who wait either have submitted a job or wait for nothing to be left to do. -/
def Waits (s : Shift) : Prop :=
  ∀ e ∈ s.sim.calls, e.2 = .idle ∨ e.2 = .join ∧ ∃ job ∈ s.submitted, job.caller = e.1

/-- What comes of a visit: a job is submitted, or callers only come, go, and are told
    something. -/
inductive Effect (s : Shift) : Shift → Prop
  | submit {sim : Simulation Workshop Call Event} (job : Job) :
    job.stage = .submitted → job.caller.number = s.sim.nextCall →
    sim.state.runner = s.sim.state.runner.submit job →
    sim.state.outcomes = s.sim.state.outcomes →
    sim.calls = s.sim.calls ++ [(job.caller, .join)] → sim.nextCall = s.sim.nextCall + 1 →
    sim.log = s.sim.log → Effect s { s.watch sim with submitted := s.submitted ++ [job] }
  | quiet {sim : Simulation Workshop Call Event} (events : List Event) {dropped : List Caller} :
    sim.state.runner = s.sim.state.runner → sim.state.outcomes = s.sim.state.outcomes →
    (∀ e ∈ sim.calls, e ∈ s.sim.calls ∨ e.2 = .idle) →
    (∀ e ∈ s.sim.calls, e ∈ sim.calls ∨ e.1 ∈ dropped ∨
      (e.2 = .join → ∃ outcome, .joined e.1 outcome ∈ events)) →
    s.sim.nextCall ≤ sim.nextCall → sim.log = s.sim.log ++ events.map (s.sim.now, ·) →
    (∀ event ∈ events, s.Told event) → s.dropped ⊆ dropped → Effect s { s.watch sim with dropped }

/-- A call that waits is answered without any change to the workshop. -/
theorem told_of_poll {call : Call} {p : Polled Workshop Call Event}
    (hcall : call = .idle ∨ call = .join) (hp : s.sim.state.poll caller call = some p) :
    p.state = s.sim.state ∧ p.rest = none ∧ (∀ event ∈ p.events, s.Told event) ∧
      (call = .join → ∃ outcome, .joined caller outcome ∈ p.events) := by
  rcases hcall with rfl | rfl
  · simp only [Workshop.poll] at hp
    split at hp
    next hidle =>
      cases hp
      refine ⟨rfl, rfl, fun event hevent => ?_, fun hjoin => by cases hjoin⟩
      rw [List.mem_singleton.1 hevent]
      exact .idle hidle
    next => cases hp
  · obtain ⟨outcome, houtcome, rfl⟩ := Option.map_eq_some_iff.1 hp
    refine ⟨rfl, rfl, fun event hevent => ?_, fun _ => ⟨outcome, List.mem_singleton_self _⟩⟩
    rw [List.mem_singleton.1 hevent]
    exact .joined houtcome

/-- A poll of a call that waits, in `s` or besides the calls in `s`. -/
theorem effect_of_poll (sim : Simulation Workshop Call Event)
    {sim' : Simulation Workshop Call Event} (hstate : sim.state = s.sim.state)
    (hcalls : ∀ e ∈ sim.calls, e ∈ s.sim.calls ∨ e.2 = .idle)
    (hkeep : ∀ e ∈ s.sim.calls, e ∈ sim.calls)
    (hnext : s.sim.nextCall ≤ sim.nextCall) (hlog : sim.log = s.sim.log)
    (hnow : sim.now = s.sim.now) (hd : sim.Distinct) (hw : s.Waits)
    (hpoll : sim.poll caller = some sim') : s.Effect (s.watch sim') := by
  obtain ⟨before, call, after, p, hsplit, hp, rfl⟩ := hd.poll hpoll
  have hcall : call = .idle ∨ call = .join := by
    rcases hcalls (caller, call) (hsplit ▸ List.mem_append_right _ List.mem_cons_self) with h | h
    · rcases hw _ h with h | ⟨h, -⟩
      · exact .inl h
      · exact .inr h
    · exact .inl h
  have hp' : s.sim.state.poll caller call = some p := hstate ▸ hp
  obtain ⟨hsame, hrest, htold, hjoined⟩ := told_of_poll hcall hp'
  refine .quiet p.events (by rw [hsame]) (by rw [hsame]) (fun e he => hcalls e ?_) (fun e he => ?_)
    hnext ?_ htold (List.Subset.refl _)
  · rw [hrest] at he
    rw [hsplit]
    rcases List.mem_append.1 he with he | he
    · exact List.mem_append_left _ he
    · exact List.mem_append_right _ (List.mem_cons_of_mem _ he)
  · have he' := hkeep e he
    rw [hsplit] at he'
    rcases List.mem_append.1 he' with he' | he'
    · exact .inl (List.mem_append_left _ he')
    · rcases List.mem_cons.1 he' with rfl | he'
      · exact .inr (.inr hjoined)
      · exact .inl (List.mem_append_right _ (List.mem_append_right _ he'))
  · dsimp only
    rw [hlog, hnow]

theorem call_submit (hd : s.sim.Distinct) (name : String) (span : Option Duration) (panics : Bool) :
    ∃ shut, (s.sim.call name (.submit span panics)).2 = { s.sim with
      state := { s.sim.state with
        runner := s.sim.state.runner.submit (s.nextJob name span panics), shut }
      calls := s.sim.calls ++ [((s.nextJob name span panics).caller, .join)]
      nextCall := s.sim.nextCall + 1 } := by
  cases span with
  | none =>
    refine ⟨(s.sim.state.shutGate ⟨name, s.sim.nextCall⟩).shut, ?_⟩
    rw [hd.call_of_poll rfl]
    simp [nextJob, Workshop.shutGate, Workshop.openGate]
  | some span =>
    refine ⟨s.sim.state.shut, ?_⟩
    rw [hd.call_of_poll rfl]
    simp [nextJob]

/-- A visit comes to one of two things, and leaves the calls with numbers of their own. -/
theorem Visit.effect (hd : s.sim.Distinct) (hw : s.Waits) (h : Visit s s') :
    s.Effect s' ∧ s'.sim.Distinct := by
  have hnothing : ∀ event ∈ ([] : List Event), s.Told event := fun _ h => absurd h List.not_mem_nil
  cases h with
  | submit name span panics =>
    have hstep : Simulation.Step (fun _ => True) s.sim (s.sim.call name (.submit span panics)).2 :=
      .call name trivial
    refine ⟨?_, hd.step hstep⟩
    obtain ⟨shut, hcall⟩ := call_submit hd name span panics
    rw [Shift.submit, hcall]
    exact .submit _ rfl rfl rfl rfl rfl rfl rfl
  | await name =>
    have hcalls : ∀ caller, ∀ e ∈ s.sim.calls ++ [(caller, Call.idle)],
        e ∈ s.sim.calls ∨ e.2 = .idle := by
      intro caller e he
      rcases List.mem_append.1 he with he | he
      · exact .inl he
      · exact .inr (List.mem_singleton.1 he ▸ rfl)
    have hkeep : ∀ caller, ∀ e ∈ s.sim.calls, e ∈ s.sim.calls ++ [(caller, Call.idle)] :=
      fun _ _ => List.mem_append_left _
    have hstep : Simulation.Step (fun _ => True) s.sim (s.sim.call name .idle).2 :=
      .call name trivial
    refine ⟨?_, hd.step hstep⟩
    obtain ⟨caller, hcaller, hcall | hpoll⟩ := s.sim.call_eq name .idle
    · rw [hcall]
      exact .quiet [] rfl rfl (hcalls caller) (fun e he => .inl (hkeep caller e he)) (Nat.le_succ _)
        (List.append_nil _).symm hnothing (List.Subset.refl _)
    · exact effect_of_poll { s.sim with
          calls := s.sim.calls ++ [(caller, .idle)]
          nextCall := s.sim.nextCall + 1 } rfl (hcalls caller) (hkeep caller) (Nat.le_succ _) rfl
        rfl (hd.append hcaller) hw hpoll
  | poll hpoll =>
    refine ⟨?_, hd.after_poll hpoll⟩
    exact effect_of_poll s.sim rfl (fun _ => .inl) (fun _ => id) (Nat.le_refl _) rfl rfl hd hw hpoll
  | withdraw hwithdraw =>
    refine ⟨?_, hd.step (Simulation.Step.withdraw hwithdraw : Simulation.Step (fun _ => True) ..)⟩
    obtain ⟨before, caller, call, after, hcalls, rfl⟩ := hd.withdraw hwithdraw
    refine .quiet [] rfl rfl (fun e he => .inl (hcalls ▸ ?_)) (fun e he => ?_) (Nat.le_refl _)
      (List.append_nil _).symm hnothing (List.subset_append_left ..)
    · exact ((List.Sublist.refl before).append (List.sublist_cons_self _ after)).subset he
    · by_cases hmem : e.1 ∈ (before ++ after).map (·.1)
      · obtain ⟨e', he', heq⟩ := List.mem_map.1 hmem
        have hcall : e' ∈ s.sim.calls := by
          rw [hcalls]
          exact ((List.Sublist.refl before).append (List.sublist_cons_self _ after)).subset he'
        exact .inl (List.inj_on_of_nodup_map hd.keys hcall he heq ▸ he')
      · exact .inr (.inl (List.mem_append_right _
          (List.mem_filter.2 ⟨List.mem_map_of_mem he, by simpa using hmem⟩)))
  | act a =>
    refine ⟨.quiet [] ?_ ?_ (fun _ => .inl) (fun _ => .inl) (Nat.le_refl _) (List.append_nil _).symm
      hnothing (List.Subset.refl _), ⟨hd.nodup, hd.lt⟩⟩ <;> cases a <;> rfl
  | wait ms =>
    exact ⟨.quiet [] rfl rfl (fun _ => .inl) (fun _ => .inl) (Nat.le_refl _)
      (List.append_nil _).symm hnothing (List.Subset.refl _), ⟨hd.nodup, hd.lt⟩⟩

end Shift

end Runner

end ConsensusCore
