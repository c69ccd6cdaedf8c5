import ConsensusCore.Proofs.Concurrency.Sequencer.Order

/-!
# The crew of a driven sequencer

Only the one who drives a sequencer has workers (`Crewed`), and has some as long as the driving
goes on: without any it is at the end, or the sequencer is stopped. What can happen to the
sequencer then comes as one of a few turns (`Turn`), of which each keeps this.

* `Crewed.drive`: driving goes on as long as there are workers, and ends without any;
* `Crewed.turn`: every turn leaves workers to nobody but the one who drives;
* `Turn.stopped`: in a turn of a stopped sequencer nothing happens but that workers go, until it
  is emptied;
* `Turn.ends`: whoever drives a stopped sequencer is told so in the end.
-/

namespace ConsensusCore

namespace Sequencer

variable {τ ρ : Type}

/-- What a worker of a stopped sequencer brings is thrown away. -/
theorem aborted_complete (s : Sequencer τ ρ) (e : Numbered τ) (o : Outcome ρ) :
    (s.complete e o).1.aborted = s.aborted := by
  cases haborted : s.aborted with
  | true =>
    rw [complete_of_aborted haborted]
    exact haborted
  | false =>
    rw [complete_of_not_aborted haborted]
    cases o <;> exact haborted

theorem stop_of_aborted {s : Sequencer τ ρ} (haborted : s.aborted = true) : s.stop = s := by
  rw [stop, ← haborted]

/-- Nothing has been put in since the sequencer was new or last emptied. -/
structure IsEmpty (s : Sequencer τ ρ) : Prop where
  input : s.input = []
  running : s.running = []
  output : s.output = []
  nextInsert : s.nextInsert = 0
  nextEmit : s.nextEmit = 0
  total : s.total = 0
  processed : s.processed = 0

/-- An empty sequencer that is not stopped is as a new one. -/
theorem IsEmpty.new_eq {s : Sequencer τ ρ} (h : s.IsEmpty) (haborted : s.aborted = false)
    (hlimit : 0 < s.config.limit) : Sequencer.new s.config = .ok s := by
  obtain ⟨config, input, running, output, nextInsert, nextEmit, total, processed, aborted⟩ := s
  obtain ⟨rfl, rfl, rfl, rfl, rfl, rfl, rfl⟩ := h
  obtain rfl : aborted = false := haborted
  exact if_neg (Nat.ne_of_gt hlimit)

/-- How many steps a worker is away from the end of its work, at most. -/
def Stage.effort : Stage → Nat
  | .fresh => 3
  | .resting _ => 2
  | .processing _ _ => 1
  | .finished _ => 0

end Sequencer

namespace DrivenSequencer

open Sequencer

variable {w w' : DrivenSequencer} {caller : Caller} {driver driver' : Option Caller}
  {p : Polled DrivenSequencer Call Event} {events : List Event}

/-! ## Driving -/

/-- The ledger of the sequencer is sound, and all workers are those of one caller. -/
structure MannedBy (w : DrivenSequencer) (caller : Caller) : Prop where
  sound : ∃ inserted told, (w.ledger inserted told).Sound
  crew : ∀ v ∈ w.workers, v.owner = caller

/-- What is there once a caller has admitted tasks, and taken what its workers bring. -/
def gather (w : DrivenSequencer) (caller : Caller) : DrivenSequencer × List Event :=
  (w.assign caller).collectUpTo caller (w.assign caller).workers.length

theorem aborted_assign (w : DrivenSequencer) (caller : Caller) :
    (w.assign caller).sequencer.aborted = w.sequencer.aborted := by
  obtain ⟨input, running, heq⟩ := w.sequencer.admitAll_eq
  simp only [assign, heq]

/-- Nothing is admitted to a stopped sequencer. -/
theorem assign_of_aborted (haborted : w.sequencer.aborted = true) : w.assign caller = w := by
  simp only [assign, admitAll, haborted, if_true, List.map_nil, List.append_nil]

/-- Without workers there is nothing to take. -/
theorem gather_of_assign (hassign : w.assign caller = w) (hworkers : w.workers = []) :
    w.gather caller = (w, []) := by
  rw [gather, hassign, hworkers, List.length_nil, collectUpTo]

/-- Where nobody works, there is nothing to leave. -/
theorem abandon_of_idle (hworkers : w.workers = []) (hrunning : w.sequencer.running = []) :
    w.abandon caller = w := by
  obtain ⟨⟨config, input, running, output, nextInsert, nextEmit, total, processed, aborted⟩,
    workers, called⟩ := w
  dsimp only at hworkers hrunning
  subst hworkers hrunning
  simp only [abandon, release, List.foldr_nil, List.filter_nil, ite_self]

namespace MannedBy

theorem assign (h : w.MannedBy caller) : (w.assign caller).MannedBy caller := by
  obtain ⟨inserted, told, hsound⟩ := h.sound
  refine ⟨⟨inserted, told, hsound.step (step_assign w caller)⟩, fun v hv => ?_⟩
  rcases List.mem_append.1 hv with hv | hv
  · exact h.crew v hv
  · obtain ⟨e, -, rfl⟩ := List.mem_map.1 hv
    rfl

theorem collect (h : w.MannedBy caller) (hc : w.collect caller = some (w', events)) :
    w'.MannedBy caller ∧ w'.sequencer.Full ∧ w'.sequencer.aborted = w.sequencer.aborted := by
  obtain ⟨inserted, told, hsound⟩ := h.sound
  have hsound' := hsound.steps (steps_collect hc)
  obtain ⟨⟨e, o, workers⟩, hfinished, heq⟩ := Option.map_eq_some_iff.1 hc
  obtain ⟨before, v, after, hworkers, rfl, rfl⟩ := takeFinished_spec hfinished
  obtain ⟨rfl, rfl⟩ := Prod.mk.inj heq
  refine ⟨⟨⟨_, _, hsound'⟩, fun u hu => ?_⟩, full_admitAll _, ?_⟩
  · rcases List.mem_append.1 hu with hu | hu
    · refine h.crew u (hworkers ▸ ?_)
      rcases List.mem_append.1 hu with hu | hu
      · exact List.mem_append_left _ hu
      · exact List.mem_append_right _ (List.mem_cons_of_mem _ hu)
    · obtain ⟨e, -, rfl⟩ := List.mem_map.1 hu
      rfl
  · exact (aborted_assign _ _).trans (aborted_complete _ _ _)

theorem collectUpTo (n : Nat) (h : w.MannedBy caller) (hfull : w.sequencer.Full) :
    (w.collectUpTo caller n).1.MannedBy caller ∧ (w.collectUpTo caller n).1.sequencer.Full ∧
      (w.collectUpTo caller n).1.sequencer.aborted = w.sequencer.aborted := by
  induction n generalizing w with
  | zero => exact ⟨h, hfull, rfl⟩
  | succ n ih =>
    simp only [DrivenSequencer.collectUpTo]
    cases hcollect : w.collect caller with
    | none => exact ⟨h, hfull, rfl⟩
    | some r =>
      obtain ⟨hnext, hfull', haborted⟩ := h.collect hcollect
      obtain ⟨hlast, hfull'', haborted'⟩ := ih hnext hfull'
      exact ⟨hlast, hfull'', haborted'.trans haborted⟩

theorem gather (h : w.MannedBy caller) :
    (w.gather caller).1.MannedBy caller ∧ (w.gather caller).1.sequencer.Full ∧
      (w.gather caller).1.sequencer.aborted = w.sequencer.aborted := by
  obtain ⟨hlast, hfull, haborted⟩ :=
    h.assign.collectUpTo (w.assign caller).workers.length (full_admitAll _)
  exact ⟨hlast, hfull, haborted.trans (aborted_assign _ _)⟩

theorem any_iff (h : w.MannedBy caller) : w.workers.any (·.owner == caller) = true ↔ w.workers ≠ [] := by
  rw [List.any_eq_true]
  constructor
  · rintro ⟨v, hv, -⟩
    exact List.ne_nil_of_mem hv
  · intro hne
    obtain ⟨v, hv⟩ := List.exists_mem_of_ne_nil _ hne
    exact ⟨v, hv, beq_iff_eq.2 (h.crew v hv)⟩

theorem running (h : w.MannedBy caller) :
    w.sequencer.running.Perm (w.workers.map (·.entry)) := by
  obtain ⟨inserted, told, hsound⟩ := h.sound
  exact hsound.kept.workers

/-- Driving goes on while there are workers. Without any it is at its end, because all tasks are
    out, or because the sequencer is stopped. -/
theorem drive (h : w.MannedBy caller) :
    ((w.gather caller).1.workers ≠ [] ∧
        (w.drive caller = none ∧ (w.gather caller).1.workers = w.workers ∨
          w.drive caller = some ⟨(w.gather caller).1, some .drive, (w.gather caller).2⟩)) ∨
      ((w.gather caller).1.workers = [] ∧
        w.drive caller = some ⟨(w.gather caller).1, none, (w.gather caller).2 ++
          [if w.sequencer.aborted then .failed caller .aborted else .finished caller]⟩) := by
  obtain ⟨hlast, hfull, haborted⟩ := h.gather
  have hdrive : w.drive caller = if (w.gather caller).1.workers.any (·.owner == caller) then
      if (w.gather caller).2.isEmpty && (w.gather caller).1.workers == w.workers then none
      else some ⟨(w.gather caller).1, some .drive, (w.gather caller).2⟩
    else if (w.gather caller).1.sequencer.aborted then
      some ⟨(w.gather caller).1.abandon caller, none, (w.gather caller).2 ++ [.failed caller .aborted]⟩
    else if (w.gather caller).1.sequencer.finished then
      some ⟨(w.gather caller).1.abandon caller, none, (w.gather caller).2 ++ [.finished caller]⟩
    else if (w.gather caller).2.isEmpty && (w.gather caller).1.workers == w.workers then none
    else some ⟨(w.gather caller).1, some .drive, (w.gather caller).2⟩ := rfl
  rw [hdrive]
  by_cases hworkers : (w.gather caller).1.workers = []
  · refine .inr ⟨hworkers, ?_⟩
    have hrunning : (w.gather caller).1.sequencer.running = [] := by
      have hperm := hlast.running
      rw [hworkers] at hperm
      exact hperm.eq_nil
    rw [if_neg (fun hany => hlast.any_iff.1 hany hworkers), haborted,
      abandon_of_idle hworkers hrunning]
    cases hstopped : w.sequencer.aborted with
    | true => rfl
    | false =>
      -- no task is left, since one would have been admitted and have a worker
      obtain ⟨inserted, told, hsound⟩ := hlast.sound
      have hfinished : (w.gather caller).1.sequencer.finished = true :=
        hsound.finished hfull (haborted.trans hstopped) hrunning
      rw [hfinished]
      rfl
  · refine .inl ⟨hworkers, ?_⟩
    rw [if_pos (hlast.any_iff.2 hworkers)]
    split
    next hsame =>
      rw [Bool.and_eq_true, beq_iff_eq] at hsame
      exact .inl ⟨rfl, hsame.2⟩
    next => exact .inr rfl

/-- Somebody who drives the sequencer goes on while there are workers, and is otherwise told how
    it has ended. -/
theorem of_drive (h : w.MannedBy caller) (hdrive : w.drive caller = some p) :
    p.state = (w.gather caller).1 ∧ p.state.MannedBy caller ∧
      (p.state.workers ≠ [] ∧ p.rest = some .drive ∧ p.events = (w.gather caller).2 ∨
        p.state.workers = [] ∧ p.rest = none ∧ p.events = (w.gather caller).2 ++
          [if w.sequencer.aborted then .failed caller .aborted else .finished caller]) := by
  obtain ⟨hlast, -, -⟩ := h.gather
  obtain ⟨hworkers, ⟨hnone, -⟩ | hsome⟩ | ⟨hworkers, hend⟩ := h.drive
  · cases hdrive.symm.trans hnone
  · cases hdrive.symm.trans hsome
    exact ⟨rfl, hlast, .inl ⟨hworkers, rfl, rfl⟩⟩
  · cases hdrive.symm.trans hend
    exact ⟨rfl, hlast, .inr ⟨hworkers, rfl, rfl⟩⟩

end MannedBy

/-! ## A stopped sequencer -/

/-- Taking what workers bring to a stopped sequencer takes them away, and nothing else. -/
theorem collectUpTo_of_aborted (n : Nat) (haborted : w.sequencer.aborted = true) :
    (w.collectUpTo caller n).2 = [] ∧ ∃ running workers, running.Sublist w.sequencer.running ∧
      (w.collectUpTo caller n).1 = { w with
        sequencer := { w.sequencer with running }
        workers } := by
  induction n generalizing w with
  | zero => exact ⟨rfl, _, _, .refl _, rfl⟩
  | succ n ih =>
    simp only [collectUpTo]
    cases hcollect : w.collect caller with
    | none => exact ⟨rfl, _, _, .refl _, rfl⟩
    | some r =>
      obtain ⟨⟨e, o, rest⟩, hfinished, heq⟩ := Option.map_eq_some_iff.1 hcollect
      dsimp only at heq
      rw [complete_of_aborted haborted] at heq
      have hassign : DrivenSequencer.assign ⟨w.sequencer.dismiss e, rest, w.called⟩ caller =
          ⟨w.sequencer.dismiss e, rest, w.called⟩ := assign_of_aborted haborted
      dsimp only at heq
      rw [hassign] at heq
      subst heq
      obtain ⟨hevents, running, workers, hsub, heq⟩ :=
        @ih ⟨w.sequencer.dismiss e, rest, w.called⟩ haborted
      exact ⟨hevents, running, workers, hsub.trans List.filter_sublist, heq⟩

theorem gather_of_aborted (caller : Caller) (haborted : w.sequencer.aborted = true) :
    (w.gather caller).2 = [] ∧ ∃ running workers, running.Sublist w.sequencer.running ∧
      (w.gather caller).1 = { w with
        sequencer := { w.sequencer with running }
        workers } := by
  rw [gather, assign_of_aborted haborted]
  exact collectUpTo_of_aborted _ haborted

/-- Once all its workers are finished, they are all taken by the one who drives. -/
theorem gather_of_finished (haborted : w.sequencer.aborted = true)
    (hfinished : ∀ v ∈ w.workers, v.owner = caller ∧ ∃ o, v.stage = .finished o) :
    (w.gather caller).1.workers = [] := by
  rw [gather, assign_of_aborted haborted]
  generalize hlength : w.workers.length = n
  induction n generalizing w with
  | zero => exact List.length_eq_zero_iff.1 hlength
  | succ n ih =>
    rcases hworkers : w.workers with _ | ⟨v, vs⟩
    · rw [hworkers] at hlength
      cases hlength
    · -- the first worker is taken, and nobody comes in its place
      rw [hworkers] at hlength hfinished
      obtain ⟨⟨howner, o, ho⟩, hrest⟩ := List.forall_mem_cons.1 hfinished
      have htake : takeFinished caller w.workers = some (v.entry, o, vs) := by
        rw [hworkers, takeFinished, howner, ho, beq_self_eq_true]
      have hassign : DrivenSequencer.assign ⟨w.sequencer.dismiss v.entry, vs, w.called⟩ caller =
          ⟨w.sequencer.dismiss v.entry, vs, w.called⟩ := assign_of_aborted haborted
      have hcollect : w.collect caller =
          some (⟨w.sequencer.dismiss v.entry, vs, w.called⟩, []) := by
        simp only [collect, htake, Option.map_some, complete_of_aborted haborted, hassign,
          List.map_nil]
      simp only [collectUpTo, hcollect]
      exact ih haborted hrest (Nat.succ.inj hlength)

theorem gather_of_idle (caller : Caller) (haborted : w.sequencer.aborted = true) (hworkers : w.workers = []) :
    w.gather caller = (w, []) :=
  gather_of_assign (assign_of_aborted haborted) hworkers

/-! ## What happens -/

/-- When a sequencer is emptied, and what is told then. -/
theorem settle_cases {reset : Bool} (h : w.settle caller reset = some p) :
    w.sequencer.running = [] ∧ p = ⟨{ w with sequencer :=
      if reset then { w.sequencer.clear with aborted := false } else w.sequencer.clear }, none,
        [.stopped caller reset]⟩ := by
  simp only [settle] at h
  split at h
  next hempty =>
    cases h
    exact ⟨List.isEmpty_iff.1 hempty, rfl⟩
  next => cases h

theorem settle_eq_none_iff {reset : Bool} :
    w.settle caller reset = none ↔ w.sequencer.running ≠ [] := by
  simp only [settle, List.isEmpty_iff]
  split
  next hempty => exact ⟨fun h => (by cases h), fun h => absurd hempty h⟩
  next hnot => exact ⟨fun _ => hnot, fun _ => rfl⟩

/-- A worker that goes on keeps its task, and comes closer to the end of its work. -/
theorem workOn_cases {now i : Nat} {v : Worker} (h : w.workOn now i v = some (w', events)) :
    ∃ stage called, w' = { w with workers := w.workers.set i { v with stage }, called } ∧
      stage.effort < v.stage.effort ∧ ∀ e ∈ events, ∃ task n, e = .process task n := by
  have hnothing : ∀ e ∈ ([] : List Event), ∃ task n, e = .process task n :=
    fun _ he => absurd he List.not_mem_nil
  have hprocess : ∀ e ∈ (w.process now i v).2, ∃ task n, e = .process task n := fun e he =>
    ⟨_, _, List.mem_singleton.1 he⟩
  obtain ⟨owner, entry, stage⟩ := v
  simp only [workOn] at h
  cases stage with
  | fresh =>
    dsimp only at h
    split at h
    next =>
      cases h
      exact ⟨_, _, rfl, show 2 < 3 by decide, hnothing⟩
    next =>
      cases h
      exact ⟨_, _, rfl, show 1 < 3 by decide, hprocess⟩
  | resting deadline =>
    dsimp only at h
    split at h
    next =>
      cases h
      exact ⟨_, _, rfl, show 1 < 2 by decide, hprocess⟩
    next => cases h
  | processing deadline o =>
    dsimp only at h
    split at h
    next =>
      cases h
      exact ⟨_, _, rfl, show 0 < 1 by decide, hnothing⟩
    next => cases h
  | finished o => cases h

/-- What the workers do: one of them goes on. -/
theorem work_cases {now : Nat} (h : w.work now = some (w', events)) :
    ∃ i v stage called, w.workers[i]? = some v ∧
      w' = { w with workers := w.workers.set i { v with stage }, called } ∧
      stage.effort < v.stage.effort ∧ ∀ e ∈ events, ∃ task n, e = .process task n := by
  obtain ⟨⟨v, i⟩, hmem, hwork⟩ := List.exists_of_findSome?_eq_some h
  obtain ⟨stage, called, heq, heffort, hevents⟩ := workOn_cases hwork
  exact ⟨i, v, stage, called, List.mem_zipIdx_iff_getElem?.1 hmem, heq, heffort, hevents⟩

/-- So each worker stays with who it works for. -/
theorem owners_work {now : Nat} (h : w.work now = some (w', events)) :
    w'.workers.map (·.owner) = w.workers.map (·.owner) := by
  obtain ⟨i, v, stage, called, hv, rfl, -⟩ := work_cases h
  exact map_set_of_getElem? hv rfl

theorem events_collectUpTo (n : Nat) (w : DrivenSequencer) :
    ∀ e ∈ (w.collectUpTo caller n).2, ∃ notice, e = .notice notice := by
  induction n generalizing w with
  | zero => exact fun _ he => absurd he List.not_mem_nil
  | succ n ih =>
    simp only [collectUpTo]
    cases hcollect : w.collect caller with
    | none => exact fun _ he => absurd he List.not_mem_nil
    | some r =>
      obtain ⟨⟨e, o, rest⟩, -, heq⟩ := Option.map_eq_some_iff.1 hcollect
      cases heq
      intro e he
      rcases List.mem_append.1 he with he | he
      · obtain ⟨notice, -, rfl⟩ := List.mem_map.1 he
        exact ⟨notice, rfl⟩
      · exact ih _ e he

theorem events_gather (w : DrivenSequencer) : ∀ e ∈ (w.gather caller).2, ∃ notice, e = .notice notice :=
  events_collectUpTo _ _

/-- Nothing is put into a stopped sequencer. -/
theorem act_of_aborted (haborted : w.sequencer.aborted = true) (task : Task) :
    w.act (.insert task) = (none, w) := by
  simp only [act, insert?, haborted, if_true]

/-! ## Turns -/

/-- Only the one who drives the sequencer, if anyone does, has workers, and has some. -/
structure Crewed (w : DrivenSequencer) (driver : Option Caller) : Prop where
  sound : ∃ inserted told, (w.ledger inserted told).Sound
  crew : ∀ v ∈ w.workers, driver = some v.owner
  busy : ∀ c, driver = some c → w.workers ≠ []

/-- What can happen next to a sequencer, who drives it then, and what is told. -/
inductive Turn (w : DrivenSequencer) (driver : Option Caller) :
    DrivenSequencer → Option Caller → List Event → Prop
  | insert (task : Task) : Turn w driver (w.act (.insert task)).2 driver []
  | work {now : Nat} {w' : DrivenSequencer} {events : List Event} :
    w.work now = some (w', events) → Turn w driver w' driver events
  /-- Time passes, or somebody goes who waits for the sequencer to be stopped. -/
  | pass : Turn w driver w driver []
  /-- Somebody comes to drive the sequencer, or goes on with it. -/
  | drive {caller : Caller} {p : Polled DrivenSequencer Call Event} :
    (driver = none ∨ driver = some caller) → w.drive caller = some p →
    Turn w driver p.state (p.rest.map fun _ => caller) p.events
  /-- Who drives the sequencer goes before the end. -/
  | leave {caller : Caller} : driver = some caller → Turn w driver (w.abandon caller) none []
  | stop : Turn w driver { w with sequencer := w.sequencer.stop } driver []
  /-- The sequencer is emptied, and may just have been stopped. -/
  | settle {w₀ : DrivenSequencer} {caller : Caller} {reset : Bool}
    {p : Polled DrivenSequencer Call Event} :
    (w₀ = w ∨ w₀ = { w with sequencer := w.sequencer.stop }) → w₀.settle caller reset = some p →
    Turn w driver p.state driver p.events

namespace Crewed

theorem of_idle (hsound : ∃ inserted told, (w.ledger inserted told).Sound) (hworkers : w.workers = []) :
    w.Crewed none where
  sound := hsound
  crew v hv := absurd (hworkers ▸ hv) List.not_mem_nil
  busy _ hc := by cases hc

theorem idle (h : w.Crewed none) : w.workers = [] := by
  refine List.eq_nil_iff_forall_not_mem.2 fun v hv => ?_
  cases h.crew v hv

theorem running (h : w.Crewed driver) : w.sequencer.running.Perm (w.workers.map (·.entry)) := by
  obtain ⟨inserted, told, hsound⟩ := h.sound
  exact hsound.kept.workers

theorem mannedBy (h : w.Crewed driver) (hdriver : driver = none ∨ driver = some caller) :
    w.MannedBy caller := by
  refine ⟨h.sound, fun v hv => ?_⟩
  have hcrew := h.crew v hv
  rcases hdriver with rfl | rfl
  · cases hcrew
  · exact (Option.some.inj hcrew).symm

theorem drive (h : w.Crewed driver) (hdriver : driver = none ∨ driver = some caller)
    (hdrive : w.drive caller = some p) :
    p.state = (w.gather caller).1 ∧ p.state.MannedBy caller ∧
      (p.state.workers ≠ [] ∧ p.rest = some .drive ∧ p.events = (w.gather caller).2 ∨
        p.state.workers = [] ∧ p.rest = none ∧ p.events = (w.gather caller).2 ++
          [if w.sequencer.aborted then .failed caller .aborted else .finished caller]) :=
  (h.mannedBy hdriver).of_drive hdrive

/-- Of a stopped sequencer, workers are taken away while it is driven, and nothing else. -/
theorem drive_of_aborted (h : w.Crewed driver) (hdriver : driver = none ∨ driver = some caller)
    (haborted : w.sequencer.aborted = true) (hdrive : w.drive caller = some p) :
    (∃ running, running.Sublist w.sequencer.running ∧
        p.state.sequencer = { w.sequencer with running }) ∧
      (p.rest = some .drive ∧ p.events = [] ∨
        p.rest = none ∧ p.events = [.failed caller .aborted]) := by
  obtain ⟨hevents, running, workers, hsub, heq⟩ := gather_of_aborted caller haborted
  obtain ⟨hstate, -, hrest⟩ := h.drive hdriver hdrive
  refine ⟨⟨running, hsub, by rw [hstate, heq]⟩, ?_⟩
  rw [hevents, if_pos haborted] at hrest
  exact hrest.imp And.right And.right

/-- Tasks are being worked on while somebody drives the sequencer. -/
theorem running_eq_nil_iff (h : w.Crewed driver) : w.sequencer.running = [] ↔ driver = none := by
  have hlength := h.running.length_eq
  rw [List.length_map] at hlength
  constructor
  · intro hrunning
    rcases driver with _ | c
    · rfl
    · rw [hrunning, List.length_nil] at hlength
      exact absurd (List.length_eq_zero_iff.1 hlength.symm) (h.busy c rfl)
  · rintro rfl
    rw [h.idle, List.length_nil] at hlength
    exact List.length_eq_zero_iff.1 hlength

/-- Whatever happens, only the one who drives the sequencer has workers. -/
theorem turn (h : w.Crewed driver) (ht : Turn w driver w' driver' events) : w'.Crewed driver' := by
  obtain ⟨inserted, told, hsound⟩ := h.sound
  cases ht with
  | insert task =>
    have hworkers : (w.act (.insert task)).2.workers = w.workers := by
      simp only [act]
      split <;> rfl
    have hsound' : Ledger.Sound ⟨(w.act (.insert task)).2.sequencer,
        some (w.workers.map (·.entry)), _, told⟩ :=
      hsound.steps (steps_act w task _)
    rw [← hworkers] at hsound'
    exact ⟨⟨_, _, hsound'⟩, hworkers ▸ h.crew, hworkers ▸ h.busy⟩
  | work hwork =>
    have howners := owners_work hwork
    refine ⟨⟨inserted, _, ledger_work hwork ▸ hsound⟩, fun v hv => ?_, fun c hc hnil => ?_⟩
    · obtain ⟨u, hu, heq⟩ := List.mem_map.1 (howners ▸ List.mem_map_of_mem hv)
      exact heq ▸ h.crew u hu
    · rw [hnil, List.map_nil, eq_comm, List.map_eq_nil_iff] at howners
      exact h.busy c hc howners
  | pass => exact h
  | @drive caller p hdriver hdrive =>
    obtain ⟨-, hlast, ⟨hworkers, hrest, -⟩ | ⟨hworkers, hrest, -⟩⟩ := h.drive hdriver hdrive
    · rw [hrest]
      exact ⟨hlast.sound, fun v hv => congrArg some (hlast.crew v hv).symm, fun _ _ => hworkers⟩
    · rw [hrest]
      exact .of_idle hlast.sound hworkers
  | @leave caller hdriver =>
    -- all workers are those of the one who goes
    have hnone : (w.abandon caller).workers = [] := by
      refine List.filter_eq_nil_iff.2 fun v hv => ?_
      have hcrew := h.crew v hv
      rw [hdriver, Option.some.injEq] at hcrew
      simp [hcrew]
    have hleft := hsound.step (step_abandon w caller)
    refine .of_idle ⟨inserted, told, ⟨{ hleft.kept with workers := ?_ }, hleft.ordered, hleft.limit⟩⟩
      hnone
    simp only [ledger, hnone]
    exact hleft.kept.workers
  | stop => exact ⟨⟨inserted, told, hsound.step .stop⟩, h.crew, h.busy⟩
  | @settle w₀ caller reset p hw₀ hsettle =>
    have hsound₀ : (w₀.ledger inserted told).Sound ∧ w₀.workers = w.workers := by
      rcases hw₀ with rfl | rfl
      · exact ⟨hsound, rfl⟩
      · exact ⟨hsound.step .stop, rfl⟩
    have hempty := hsound₀.1.step (step_settle hsettle _)
    obtain ⟨-, rfl⟩ := settle_cases hsettle
    exact ⟨⟨[], [], hempty⟩, fun v hv => h.crew v (hsound₀.2 ▸ hv), fun c hc => hsound₀.2 ▸ h.busy c hc⟩

end Crewed

namespace Turn

/-- Nothing changes how the sequencer works. -/
theorem config (ht : Turn w driver w' driver' events) :
    w'.sequencer.config = w.sequencer.config := by
  cases ht with
  | insert task =>
    have hsteps : Ledger.Steps ⟨w.sequencer, none, [], []⟩ _ := steps_act w task none
    exact Ledger.config_steps hsteps
  | work hwork =>
    obtain ⟨-, -, -, -, -, rfl, -⟩ := work_cases hwork
    rfl
  | pass => rfl
  | drive _ hdrive =>
    have hsteps : Ledger.Steps (w.ledger [] []) _ := steps_drive hdrive
    exact Ledger.config_steps hsteps
  | leave => rfl
  | stop => rfl
  | @settle w₀ c reset p hw₀ hsettle =>
    obtain ⟨-, rfl⟩ := settle_cases hsettle
    rcases hw₀ with rfl | rfl <;> cases reset <;> rfl

/-- When it is told that the sequencer is stopped and empty it is, and after a reset it is as a
    new one. -/
theorem emptied (h : w.Crewed driver) (ht : Turn w driver w' driver' events) {reset : Bool}
    (hevent : .stopped caller reset ∈ events) :
    w'.sequencer.IsEmpty ∧
      (reset = true → Sequencer.new w.sequencer.config = .ok w'.sequencer) := by
  cases ht with
  | insert => cases hevent
  | work hwork =>
    obtain ⟨-, -, -, -, -, -, -, hevents⟩ := work_cases hwork
    obtain ⟨task, n, heq⟩ := hevents _ hevent
    cases heq
  | pass => cases hevent
  | @drive c p hdriver hdrive =>
    exfalso
    obtain ⟨-, -, ⟨-, -, hevents⟩ | ⟨-, -, hevents⟩⟩ := h.drive hdriver hdrive
    · obtain ⟨notice, heq⟩ := events_gather w _ (hevents ▸ hevent)
      cases heq
    · rw [hevents, List.mem_append] at hevent
      rcases hevent with hevent | hevent
      · obtain ⟨notice, heq⟩ := events_gather w _ hevent
        cases heq
      · have heq := List.mem_singleton.1 hevent
        split at heq <;> cases heq
  | leave => cases hevent
  | stop => cases hevent
  | @settle w₀ c r p hw₀ hsettle =>
    obtain ⟨hrunning, rfl⟩ := settle_cases hsettle
    obtain ⟨rfl, rfl⟩ := Event.stopped.inj (List.mem_singleton.1 hevent)
    obtain ⟨inserted, told, hsound⟩ := h.sound
    have hconfig : w₀.sequencer.config = w.sequencer.config := by
      rcases hw₀ with rfl | rfl <;> rfl
    cases reset with
    | false => exact ⟨⟨rfl, hrunning, rfl, rfl, rfl, rfl, rfl⟩, fun hreset => by cases hreset⟩
    | true =>
      have hempty : Sequencer.IsEmpty { w₀.sequencer.clear with aborted := false } :=
        ⟨rfl, hrunning, rfl, rfl, rfl, rfl, rfl⟩
      exact ⟨hempty, fun _ => hconfig ▸ hempty.new_eq rfl (hconfig ▸ hsound.limit)⟩

/-- While the sequencer is stopped nothing is told of its tasks, and it changes only in that
    tasks are not worked on any more, until it is emptied. -/
theorem stopped (h : w.Crewed driver) (ht : Turn w driver w' driver' events)
    (haborted : w.sequencer.aborted = true) :
    (∀ notice, .notice notice ∉ events) ∧ ((∃ caller, .stopped caller true ∈ events) ∨
      w'.sequencer.aborted = true ∧ ((∃ caller, .stopped caller false ∈ events) ∨
        ∃ running, running.Sublist w.sequencer.running ∧
          w'.sequencer = { w.sequencer with running })) := by
  have hsame : ∃ running, running.Sublist w.sequencer.running ∧
      w.sequencer = { w.sequencer with running } := ⟨_, .refl _, rfl⟩
  cases ht with
  | insert task =>
    rw [act_of_aborted haborted]
    exact ⟨fun _ hnotice => (by cases hnotice), .inr ⟨haborted, .inr hsame⟩⟩
  | work hwork =>
    obtain ⟨-, -, -, -, -, rfl, -, hevents⟩ := work_cases hwork
    refine ⟨fun notice hnotice => ?_, .inr ⟨haborted, .inr hsame⟩⟩
    obtain ⟨task, n, heq⟩ := hevents _ hnotice
    cases heq
  | pass => exact ⟨fun _ hnotice => (by cases hnotice), .inr ⟨haborted, .inr hsame⟩⟩
  | drive hdriver hdrive =>
    obtain ⟨⟨running, hsub, heq⟩, hrest⟩ := h.drive_of_aborted hdriver haborted hdrive
    refine ⟨fun notice hnotice => ?_, .inr ⟨heq ▸ haborted, .inr ⟨running, hsub, heq⟩⟩⟩
    obtain ⟨-, hevents⟩ | ⟨-, hevents⟩ := hrest
    · rw [hevents] at hnotice
      cases hnotice
    · rw [hevents] at hnotice
      cases List.mem_singleton.1 hnotice
  | leave =>
    refine ⟨fun _ hnotice => (by cases hnotice), .inr ⟨haborted, .inr ⟨[], List.nil_sublist _, ?_⟩⟩⟩
    simp only [abandon, release, haborted, if_true]
  | stop =>
    rw [stop_of_aborted haborted]
    exact ⟨fun _ hnotice => (by cases hnotice), .inr ⟨haborted, .inr hsame⟩⟩
  | @settle w₀ caller reset p hw₀ hsettle =>
    obtain ⟨-, rfl⟩ := settle_cases hsettle
    have hw : w₀.sequencer = w.sequencer := by
      rcases hw₀ with rfl | rfl
      · rfl
      · exact stop_of_aborted haborted
    refine ⟨fun notice hnotice => (by cases List.mem_singleton.1 hnotice), ?_⟩
    cases reset with
    | true => exact .inl ⟨caller, List.mem_singleton_self _⟩
    | false => exact .inr ⟨hw ▸ haborted, .inl ⟨caller, List.mem_singleton_self _⟩⟩

/-- Whoever drives a stopped sequencer goes on doing so, or goes, or is told that it is stopped. -/
theorem ends (h : w.Crewed (some caller)) (ht : Turn w (some caller) w' driver' events)
    (haborted : w.sequencer.aborted = true) :
    driver' = some caller ∧ w'.sequencer.aborted = true ∨
      driver' = none ∧ (events = [.failed caller .aborted] ∨
        events = [] ∧ w' = w.abandon caller) := by
  have hbusy : w.sequencer.running ≠ [] := fun hrunning => by
    cases h.running_eq_nil_iff.1 hrunning
  cases ht with
  | @drive c p hdriver hdrive =>
    obtain rfl : caller = c := by
      rcases hdriver with hnone | hsome
      · cases hnone
      · exact Option.some.inj hsome
    obtain ⟨⟨running, -, heq⟩, hrest⟩ := h.drive_of_aborted hdriver haborted hdrive
    obtain ⟨hrest, -⟩ | ⟨hrest, hevents⟩ := hrest
    · rw [hrest, heq]
      exact .inl ⟨rfl, haborted⟩
    · rw [hrest]
      exact .inr ⟨rfl, .inl hevents⟩
  | leave hcaller =>
    cases hcaller
    exact .inr ⟨rfl, .inr ⟨rfl, rfl⟩⟩
  | @settle w₀ c reset p hw₀ hsettle =>
    obtain ⟨hrunning, -⟩ := settle_cases hsettle
    -- whoever drives the sequencer has workers, so that it cannot be emptied yet
    rcases hw₀ with rfl | rfl <;> exact absurd hrunning hbusy
  | insert task => exact .inl ⟨rfl, by rw [act_of_aborted haborted]; exact haborted⟩
  | work hwork =>
    obtain ⟨-, -, -, -, -, rfl, -⟩ := work_cases hwork
    exact .inl ⟨rfl, haborted⟩
  | pass => exact .inl ⟨rfl, haborted⟩
  | stop => exact .inl ⟨rfl, rfl⟩

end Turn

end DrivenSequencer

end ConsensusCore
