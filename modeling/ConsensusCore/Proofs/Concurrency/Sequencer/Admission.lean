import ConsensusCore.Proofs.Concurrency.Sequencer.Stopping

/-!
# Which tasks are being worked on

The tasks that wait are kept by number as well, also those that are to be worked on again, and
they are admitted from the lowest on while there is room (`Sequencer.Limited`). So all tasks
before one that is admitted are out, or are being worked on, or their results wait. Once tasks
have been admitted, others wait only if there is no room; and if nothing is being worked on then,
nothing waits at all and whoever drives the sequencer is at the end.

* `Ledger.Sound.limited_step`: this is kept, whatever happens;
* `Ledger.Sound.lower_of_admitted`: where the tasks before one that is admitted are;
* `Run.record`: whatever callers do is put down in a ledger;
* `starts_lowest_first`: what this says about those who drive a sequencer.
-/

namespace ConsensusCore

theorem foldr_insertByIndex_sorted {α : Type} {index : α → Nat} {l l' : List α}
    (hl' : l'.Pairwise (index · < index ·)) (hnodup : ((l ++ l').map index).Nodup) :
    (l.foldr (insertByIndex index) l').Pairwise (index · < index ·) := by
  induction l with
  | nil => exact hl'
  | cons a l ih =>
    rw [List.cons_append, List.map_cons, List.nodup_cons] at hnodup
    refine insertByIndex_sorted (ih hnodup.2) fun b hb heq => hnodup.1 ?_
    exact heq ▸ List.mem_map_of_mem ((foldr_insertByIndex_perm index l l').mem_iff.1 hb)

namespace Sequencer

variable {τ ρ : Type} {s : Sequencer τ ρ} {e : Numbered τ}

/-- The tasks that wait are kept by number, and no more are being worked on than may be. -/
structure Limited (s : Sequencer τ ρ) : Prop where
  sorted : s.input.Pairwise (·.index < ·.index)
  running : s.running.length ≤ s.config.limit

@[simp] theorem running_complete (s : Sequencer τ ρ) (e : Numbered τ) (o : Outcome ρ) :
    (s.complete e o).1.running = (s.dismiss e).running := by
  cases haborted : s.aborted with
  | true => rw [complete_of_aborted haborted]
  | false =>
    rw [complete_of_not_aborted haborted]
    cases o <;> rfl

theorem length_running_admitUpTo {n : Nat} (h : s.running.length ≤ s.config.limit) :
    (s.admitUpTo n).2.running.length ≤ s.config.limit := by
  induction n generalizing s with
  | zero => exact h
  | succ n ih =>
    simp only [admitUpTo]
    split
    next => exact h
    next e s' hnext =>
      simp only [admitNext?] at hnext
      split at hnext
      next => cases hnext
      next =>
        split at hnext
        next hroom =>
          cases hnext
          refine ih ?_
          rw [(insertByIndex_perm _ _ _).length_eq]
          exact hroom
        next => cases hnext

/-- Tasks that are admitted are taken from the front of what waits, and are being worked on. -/
theorem admitAll_spec (s : Sequencer τ ρ) :
    s.input = s.admitAll.1 ++ s.admitAll.2.input ∧
      s.admitAll.2.running.Perm (s.admitAll.1 ++ s.running) := by
  simp only [admitAll]
  split
  next => exact ⟨rfl, .refl _⟩
  next =>
    obtain ⟨input, running, heq, hinput, hrunning⟩ := s.admitUpTo_spec s.input.length
    rw [heq]
    exact ⟨hinput, hrunning⟩

namespace Limited

variable (h : s.Limited)
include h

/-- No more are admitted than fit. -/
theorem admitAll : s.admitAll.2.Limited := by
  refine ⟨h.sorted.sublist (s.admitAll_spec.1 ▸ List.sublist_append_right _ _), ?_⟩
  obtain ⟨input, running, heq⟩ := s.admitAll_eq
  have hconfig : s.admitAll.2.config = s.config := by rw [heq]
  rw [hconfig, Sequencer.admitAll]
  split
  next => exact h.running
  next => exact length_running_admitUpTo h.running

/-- When a task is admitted, those that still wait have higher numbers. -/
theorem lt_of_admitted {before after : List (Numbered τ)}
    (htaken : s.admitAll.1 = before ++ e :: after) :
    ∀ b ∈ after ++ s.admitAll.2.input, e.index < b.index := by
  have hsorted := h.sorted
  rw [s.admitAll_spec.1, htaken, List.append_assoc, List.cons_append] at hsorted
  exact (List.pairwise_cons.1 (List.pairwise_append.1 hsorted).2.1).1

/-- A task that is to be worked on again gets back to its place. -/
theorem complete (o : Outcome ρ)
    (hnew : s.aborted = false → ∀ b ∈ s.input, b.index ≠ e.index) : (s.complete e o).1.Limited := by
  refine ⟨?_, ?_⟩
  · cases haborted : s.aborted with
    | true =>
      rw [complete_of_aborted haborted]
      exact h.sorted
    | false =>
      have hback := insertByIndex_sorted h.sorted (hnew haborted)
      have hagain := insertByIndex_sorted (a := { e with attempt := e.attempt + 1 }) h.sorted
        (hnew haborted)
      rw [complete_of_not_aborted haborted]
      cases o with
      | success result => exact h.sorted
      | failure text => exact hagain
      | panic => exact hagain
      | lost => exact hback
  · rw [running_complete, config_complete]
    exact Nat.le_trans (List.length_filter_le _ _) h.running

end Limited

end Sequencer

namespace Ledger

open Sequencer

variable {τ ρ : Type} {x y : Ledger τ ρ}

theorem limited_start {config : SequencerConfig} {s : Sequencer τ ρ}
    (hs : Sequencer.new config = .ok s) : (start s).sequencer.Limited := by
  simp only [Sequencer.new] at hs
  split at hs
  next => cases hs
  next =>
    cases hs
    exact ⟨.nil, Nat.zero_le _⟩

namespace Sound

/-- Every step keeps the tasks that wait by number, and within the limit those that are being
    worked on. -/
theorem limited_step (h : x.Sound) (hl : x.sequencer.Limited) (hstep : Step x y) :
    y.sequencer.Limited := by
  cases hstep with
  | insert hs =>
    simp only [insert?] at hs
    split at hs
    next => cases hs
    next haborted =>
      cases hs
      refine ⟨insertByIndex_sorted hl.sorted fun b hb => ?_, hl.running⟩
      -- what waits has the number of a task that was put in before
      have hmem := (h.kept.mem_indices_iff (Bool.not_eq_true _ ▸ haborted)).1
        (.inl (List.mem_map_of_mem hb))
      exact Nat.ne_of_lt hmem.2
  | drive => exact hl
  | enter => exact hl.admitAll
  | @complete before after e o hheld =>
    refine hl.complete o fun haborted b hb heq => ?_
    have hworkers := h.kept.workers
    rw [hheld, Option.getD_some] at hworkers
    have he : e ∈ x.sequencer.running :=
      hworkers.mem_iff.2 (List.mem_append_right _ List.mem_cons_self)
    have hnodup := nodup_of_tasks h.kept.numbers (h.kept.tasks haborted)
    exact (List.nodup_append.1 hnodup).2.2 _ (List.mem_map_of_mem hb) _
      (List.mem_append_left _ (List.mem_map_of_mem he)) heq
  | leave =>
    refine ⟨?_, Nat.zero_le _⟩
    simp only [release]
    split
    next => exact hl.sorted
    next haborted =>
      have hnodup := nodup_of_tasks h.kept.numbers (h.kept.tasks (Bool.not_eq_true _ ▸ haborted))
      rw [← List.append_assoc] at hnodup
      refine foldr_insertByIndex_sorted hl.sorted ?_
      rw [List.map_append, List.perm_append_comm.nodup_iff]
      exact (List.nodup_append.1 hnodup).1
  | stop => exact ⟨hl.sorted, hl.running⟩
  | clear reset => cases reset <;> exact ⟨.nil, hl.running⟩

theorem limited_steps (h : x.Sound) (hl : x.sequencer.Limited) (hsteps : Steps x y) :
    y.sequencer.Limited := by
  induction hsteps with
  | refl => exact hl
  | tail hsteps hstep ih => exact (h.steps hsteps).limited_step ih hstep

/-- Of the tasks before one that is admitted none waits any more. -/
theorem lower_of_admitted (h : x.Sound) (hl : x.sequencer.Limited)
    (haborted : x.sequencer.aborted = false) {before after : List (Numbered τ)} {e : Numbered τ}
    (htaken : x.sequencer.admitAll.1 = before ++ e :: after) {i : Nat} (hi : i < e.index) :
    i ∈ (results x.told).map (·.1) ∨ i ∈ (x.sequencer.running ++ before).map (·.index) ∨
      i ∈ x.sequencer.output.map (·.index) := by
  have hhigher := hl.lt_of_admitted htaken
  have hinput := x.sequencer.admitAll_spec.1
  rw [htaken, List.append_assoc, List.cons_append] at hinput
  by_cases hout : i < x.sequencer.nextEmit
  · exact .inl (h.kept.mem_results_iff.2 hout)
  · have he : e ∈ x.sequencer.input :=
      hinput ▸ List.mem_append_right _ List.mem_cons_self
    have hlt := ((h.kept.mem_indices_iff haborted).1 (.inl (List.mem_map_of_mem he))).2
    rw [List.map_append, List.mem_append]
    rcases (h.kept.mem_indices_iff haborted).2 ⟨Nat.le_of_not_lt hout, Nat.lt_trans hi hlt⟩ with
      hmem | hmem | hmem
    · -- of what waits, only those in front of the task have lower numbers
      rw [hinput] at hmem
      obtain ⟨b, hb, rfl⟩ := List.mem_map.1 hmem
      rcases List.mem_append.1 hb with hb | hb
      · exact .inr (.inl (.inr (List.mem_map_of_mem hb)))
      · rcases List.mem_cons.1 hb with rfl | hb
        · exact absurd hi (Nat.lt_irrefl _)
        · exact absurd hi (Nat.lt_asymm (hhigher b hb))
    · exact .inr (.inl (.inl hmem))
    · exact .inr (.inr hmem)

/-- Once tasks have been admitted, others wait only if no more can be worked on. -/
theorem length_running_of_waits (hl : x.sequencer.Limited) (haborted : x.sequencer.aborted = false)
    (hwaits : x.sequencer.admitAll.2.input ≠ []) :
    x.sequencer.admitAll.2.running.length = x.sequencer.config.limit := by
  have hfull := full_admitAll x.sequencer
  have hlength := hl.admitAll.running
  obtain ⟨input, running, heq⟩ := x.sequencer.admitAll_eq
  rw [heq] at hfull hlength hwaits ⊢
  exact Nat.le_antisymm hlength ((hfull haborted).resolve_left hwaits)

/-- If nothing is being worked on once tasks have been admitted, none was, and nothing waits. -/
theorem idle (h : x.Sound) (haborted : x.sequencer.aborted = false)
    (hrunning : x.sequencer.admitAll.2.running = []) :
    x.sequencer.admitAll = ([], x.sequencer) ∧ x.sequencer.running = [] ∧
      x.sequencer.input = [] ∧ x.sequencer.output = [] ∧ x.sequencer.finished = true := by
  have hall : x.sequencer.admitAll = ([], x.sequencer) ∧ x.sequencer.running = [] := by
    obtain ⟨hinput, hperm⟩ := x.sequencer.admitAll_spec
    obtain ⟨input, running, heq⟩ := x.sequencer.admitAll_eq
    rw [hrunning] at hperm
    obtain ⟨hnone, hempty⟩ := List.append_eq_nil_iff.1 hperm.symm.eq_nil
    rw [hnone, heq, List.nil_append] at hinput
    rw [heq] at hrunning
    obtain rfl : input = x.sequencer.input := hinput.symm
    obtain rfl : running = x.sequencer.running := hrunning.trans hempty.symm
    exact ⟨Prod.ext hnone heq, hempty⟩
  have hfull : x.sequencer.Full := by
    have hfull := full_admitAll x.sequencer
    rwa [hall.1] at hfull
  obtain ⟨-, hinput, houtput⟩ := h.drained hfull haborted hall.2
  exact ⟨hall.1, hall.2, hinput, houtput, h.finished hfull haborted hall.2⟩

end Sound

end Ledger

namespace DrivenSequencer

open Sequencer Ledger

variable {w w' : DrivenSequencer} {driver driver' : Option Caller} {caller : Caller}
  {p : Polled DrivenSequencer Call Event} {events : List Event}
  {inserted : List (Nat × Task)} {told : List (Notice Task String)}

/-! ## What callers do -/

/-- The ledger of a sequencer that somebody drives, or nobody. -/
def record (w : DrivenSequencer) (driver : Option Caller) (inserted : List (Nat × Task))
    (told : List (Notice Task String)) : Ledger Task String :=
  ⟨w.sequencer, driver.map fun _ => w.workers.map (·.entry), inserted, told⟩

/-- Every turn is put down in the ledger. -/
theorem Turn.record (h : w.Crewed driver) (ht : Turn w driver w' driver' events)
    (inserted : List (Nat × Task)) (told : List (Notice Task String)) : ∃ inserted' told',
      Steps (w.record driver inserted told) (w'.record driver' inserted' told') := by
  cases ht with
  | insert task =>
    have hworkers : (w.act (.insert task)).2.workers = w.workers := by
      simp only [act]
      split <;> rfl
    refine ⟨inserted ++ ((w.act (.insert task)).1.map (·, task)).toList, told, ?_⟩
    rw [DrivenSequencer.record, DrivenSequencer.record, hworkers]
    exact steps_act w task _
  | work hwork =>
    obtain ⟨i, v, stage, called, hv, rfl, -⟩ := work_cases hwork
    refine ⟨inserted, told, ?_⟩
    have hentries : (w.workers.set i { v with stage }).map (·.entry) = w.workers.map (·.entry) :=
      map_set_of_getElem? hv rfl
    rw [DrivenSequencer.record, DrivenSequencer.record, hentries]
  | pass => exact ⟨inserted, told, .refl⟩
  | @drive c p hdriver hdrive =>
    have hsteps : Steps (w.ledger inserted told) _ := steps_drive hdrive
    refine ⟨inserted, told ++ notices p.events, ?_⟩
    have hstart : Steps (w.record driver inserted told) (w.ledger inserted told) := by
      rcases hdriver with rfl | rfl
      · rw [ledger, h.idle]
        exact .single (.drive rfl)
      · exact .refl
    have hend : p.state.record (p.rest.map fun _ => c) inserted (told ++ notices p.events) =
        { p.state.ledger inserted (told ++ notices p.events) with
          workers := p.rest.map fun _ => p.state.workers.map (·.entry) } := by
      rw [DrivenSequencer.record, Option.map_map]
      rfl
    rw [hend]
    exact hstart.trans hsteps
  | leave hdriver =>
    rw [hdriver]
    exact ⟨inserted, told, .single (.leave rfl)⟩
  | stop => exact ⟨inserted, told, .single .stop⟩
  | @settle w₀ c reset p hw₀ hsettle =>
    have hempty :
        Step ⟨w₀.sequencer, driver.map fun _ => w.workers.map (·.entry), inserted, told⟩ _ :=
      step_settle hsettle _
    obtain ⟨-, rfl⟩ := settle_cases hsettle
    refine ⟨[], [], ?_⟩
    rcases hw₀ with rfl | rfl
    · exact .single hempty
    · exact .head .stop (.single hempty)

/-- Whatever callers do to a sequencer is put down in a ledger. -/
theorem Run.record {config : SequencerConfig} {s : Driving}
    (hw : DrivenSequencer.new config = .ok w) (hs : Run (.start w) s) :
    ∃ driver inserted told, Managed s driver ∧
      Steps (start w.sequencer) (s.state.record driver inserted told) := by
  induction hs with
  | refl => exact ⟨none, [], [], managed_start hw, .refl⟩
  | tail _ hstep ih =>
    obtain ⟨driver, inserted, told, h, hsteps⟩ := ih
    obtain ⟨driver', events, hfollows⟩ := h.follows hstep
    obtain ⟨inserted', told', hrecord⟩ := hfollows.turn.record h.crewed inserted told
    exact ⟨driver', inserted', told', h.next hstep hfollows, hsteps.trans hrecord⟩

namespace MannedBy

/-- If nothing is being worked on once tasks have been admitted, driving ends at once. -/
theorem drive_of_idle (h : w.MannedBy caller) (haborted : w.sequencer.aborted = false)
    (hrunning : w.sequencer.admitAll.2.running = []) :
    w.drive caller = some ⟨w, none, [.finished caller]⟩ := by
  obtain ⟨inserted, told, hsound⟩ := h.sound
  obtain ⟨hnone, hempty, -⟩ := hsound.idle haborted hrunning
  have hworkers : w.workers = [] := by
    have hperm := h.running
    rw [show w.sequencer.running = [] from hempty] at hperm
    exact List.map_eq_nil_iff.1 hperm.symm.eq_nil
  have hassign : w.assign caller = w := by
    simp only [DrivenSequencer.assign, show w.sequencer.admitAll = ([], w.sequencer) from hnone,
      List.map_nil, List.append_nil]
  have hgather := gather_of_assign hassign hworkers
  obtain ⟨hbusy, -⟩ | ⟨-, hend⟩ := h.drive
  · rw [hgather] at hbusy
    exact absurd hworkers hbusy
  · rwa [hgather, haborted] at hend

/-- Driving waits for workers only. -/
theorem running_of_drive (h : w.MannedBy caller) (hdrive : w.drive caller = none) :
    w.sequencer.running ≠ [] := by
  intro hrunning
  obtain ⟨hworkers, ⟨-, hsame⟩ | hsome⟩ | ⟨-, hend⟩ := h.drive
  · have hperm := h.running
    rw [hrunning] at hperm
    rw [hsame] at hworkers
    exact hworkers (List.map_eq_nil_iff.1 hperm.symm.eq_nil)
  · cases hdrive.symm.trans hsome
  · cases hdrive.symm.trans hend

/-- Driving is at its end when all results have been told. -/
theorem told_of_finished (h : w.MannedBy caller) (hsound : (w.ledger inserted told).Sound)
    (hdrive : w.drive caller = some p) (hfinished : .finished caller ∈ p.events) :
    p.state.sequencer.finished = true ∧ results (told ++ notices p.events) = inserted := by
  have hsteps := hsound.steps (steps_drive hdrive)
  obtain ⟨hstate, hlast, ⟨-, -, hevents⟩ | ⟨hworkers, -, hevents⟩⟩ := h.of_drive hdrive
  · obtain ⟨notice, heq⟩ := events_gather w _ (hevents ▸ hfinished)
    cases heq
  · obtain ⟨-, hfull, haborted⟩ := h.gather
    rw [← hstate] at hfull haborted
    have hnot : w.sequencer.aborted = false := by
      -- otherwise the end would have been another
      rw [hevents, List.mem_append, List.mem_singleton] at hfinished
      rcases hfinished with hnotice | hend
      · obtain ⟨notice, heq⟩ := events_gather w _ hnotice
        cases heq
      · split at hend
        next => cases hend
        next hnot => exact Bool.not_eq_true _ ▸ hnot
    have hrunning : p.state.sequencer.running = [] := by
      have hperm := hlast.running
      rw [hworkers] at hperm
      exact hperm.eq_nil
    have hall : p.state.sequencer.finished = true :=
      hsteps.finished hfull (haborted.trans hnot) hrunning
    exact ⟨hall, hsteps.kept.finished_iff.1 hall⟩

end MannedBy

/-- Whatever callers do to a sequencer, of whom one at a time drives it, is put down in a ledger.
    As long as it is not stopped, no more tasks are being worked on than may be. Whenever a task is
    given to a worker, those that still wait have higher numbers, and of all with lower numbers the
    results are told, or they are being worked on, or their results wait. Once tasks have been
    admitted, others wait only if as many are being worked on as may be, and if none is, nothing
    waits and all results are out, so that driving ends; and it ends only when the results have been
    told of all tasks that were put in since the sequencer was new or last emptied. While it waits,
    tasks are being worked on. -/
theorem starts_lowest_first {config : SequencerConfig} {w₀ : DrivenSequencer}
    (hw : DrivenSequencer.new config = .ok w₀) :
    (∀ s, Run (.start w₀) s → ∃ driver inserted told, Drives s.calls driver ∧
      (∀ v ∈ s.state.workers, driver = some v.owner) ∧
      Steps (start w₀.sequencer) (s.state.record driver inserted told)) ∧
    ∀ x, Steps (start w₀.sequencer) x → x.sequencer.aborted = false →
      x.sequencer.running.length ≤ config.limit ∧
      (∀ before e after, x.sequencer.admitAll.1 = before ++ e :: after →
        (∀ b ∈ after ++ x.sequencer.admitAll.2.input, e.index < b.index) ∧
        ∀ i < e.index, i ∈ (results x.told).map (·.1) ∨
          i ∈ (x.sequencer.running ++ before).map (·.index) ∨
          i ∈ x.sequencer.output.map (·.index)) ∧
      (x.sequencer.admitAll.2.input ≠ [] →
        x.sequencer.admitAll.2.running.length = config.limit) ∧
      (x.sequencer.admitAll.2.running = [] → x.sequencer.input = [] ∧ x.sequencer.output = [] ∧
        x.sequencer.processed = x.sequencer.total) ∧
      (x.sequencer.processed = x.sequencer.total → results x.told = x.inserted) ∧
      ∀ (w : DrivenSequencer) (caller : Caller), w.sequencer = x.sequencer →
        x.workers.getD [] = w.workers.map (·.entry) → (∀ v ∈ w.workers, v.owner = caller) →
        (w.sequencer.admitAll.2.running = [] →
          w.drive caller = some ⟨w, none, [.finished caller]⟩) ∧
        (w.drive caller = none → w.sequencer.running ≠ []) ∧
        ∀ p, w.drive caller = some p → .finished caller ∈ p.events →
          p.state.sequencer.processed = p.state.sequencer.total ∧
            results (x.told ++ notices p.events) = x.inserted := by
  obtain ⟨s₀, hs₀, hconfig, rfl⟩ := new_cases hw
  refine ⟨fun s hs => ?_, fun x hx haborted => ?_⟩
  · obtain ⟨driver, inserted, told, h, hsteps⟩ := Run.record hw hs
    exact ⟨driver, inserted, told, h.drives, h.crewed.crew, hsteps⟩
  · have hsound := (sound_start hs₀).steps hx
    have hlimited := (sound_start hs₀).limited_steps (limited_start hs₀) hx
    have hlimit : x.sequencer.config = config := (config_steps hx).trans hconfig
    refine ⟨hlimit ▸ hlimited.running, fun before e after htaken =>
      ⟨hlimited.lt_of_admitted htaken, fun i => hsound.lower_of_admitted hlimited haborted htaken⟩,
      fun hwaits => hlimit ▸ Sound.length_running_of_waits hlimited haborted hwaits,
      fun hrunning => ?_, fun heq => hsound.kept.finished_iff.1 (beq_iff_eq.2 heq), ?_⟩
    · obtain ⟨-, -, hinput, houtput, hfinished⟩ := hsound.idle haborted hrunning
      exact ⟨hinput, houtput, beq_iff_eq.1 hfinished⟩
    · intro w caller hsequencer hworkers howner
      have hledger : (w.ledger x.inserted x.told).Sound := by
        rw [ledger, hsequencer]
        refine ⟨{ hsound.kept with workers := ?_ }, hsound.ordered, hsound.limit⟩
        exact hworkers ▸ hsound.kept.workers
      have hmanned : w.MannedBy caller := ⟨⟨_, _, hledger⟩, howner⟩
      refine ⟨hmanned.drive_of_idle (hsequencer ▸ haborted), hmanned.running_of_drive,
        fun p hdrive hfinished => ?_⟩
      obtain ⟨hall, hresults⟩ := hmanned.told_of_finished hledger hdrive hfinished
      exact ⟨beq_iff_eq.1 hall, hresults⟩

/-- Two of three tasks are being worked on, and the second fails: it is admitted again before the
    third. Without any task, driving ends at once. -/
theorem starts_lowest_first_retry :
    let w : DrivenSequencer := ⟨⟨⟨2, .zero⟩, [], [], [], 0, 0, 0, 0, false⟩, [], []⟩
    let a : Numbered Task := ⟨0, 0, ⟨"a", []⟩⟩
    let b : Numbered Task := ⟨1, 1, ⟨"b", []⟩⟩
    let c : Numbered Task := ⟨2, 0, ⟨"c", []⟩⟩
    let x : Ledger Task String := ⟨⟨⟨2, .zero⟩, [b, c], [a], [], 3, 0, 3, 0, false⟩, some [a],
      [a.label, b.label, c.label], [.failure 1 b.task "no"]⟩
    DrivenSequencer.new ⟨2, .zero⟩ = .ok w ∧ Steps (start w.sequencer) x ∧
      x.sequencer.admitAll.1 = [b] ∧ x.sequencer.admitAll.2.running.length = 2 ∧
      (0 ∈ (results x.told).map (·.1) ∨ 0 ∈ x.sequencer.running.map (·.index) ∨
        0 ∈ x.sequencer.output.map (·.index)) ∧
      ∀ caller, w.drive caller = some ⟨w, none, [.finished caller]⟩ := by
  intro w a b c x
  have hw : DrivenSequencer.new ⟨2, .zero⟩ = .ok w := rfl
  let b₀ : Numbered Task := ⟨1, 0, ⟨"b", []⟩⟩
  have hinsert : Steps (start w.sequencer)
      ⟨⟨⟨2, .zero⟩, [a, b₀, c], [], [], 3, 0, 3, 0, false⟩, none, x.inserted, []⟩ :=
    ((Relation.ReflTransGen.refl.tail (@Step.insert _ _ _ a.task _ _ rfl)).tail
      (@Step.insert _ _ _ b.task _ _ rfl)).tail (@Step.insert _ _ _ c.task _ _ rfl)
  have hentered : Steps (start w.sequencer)
      ⟨⟨⟨2, .zero⟩, [c], [a, b₀], [], 3, 0, 3, 0, false⟩, some [a, b₀], x.inserted, []⟩ :=
    (hinsert.tail (.drive rfl)).tail (@Step.enter _ _ _ [] rfl)
  have hx : Steps (start w.sequencer) x :=
    hentered.tail (@Step.complete _ _ _ [a] [] b₀ (.failure "no") rfl)
  obtain ⟨-, hstates⟩ := starts_lowest_first hw
  obtain ⟨-, hlower, hfull, -⟩ := hstates x hx rfl
  obtain ⟨-, -, -, -, -, hdrives⟩ := hstates _ .refl rfl
  exact ⟨hw, hx, rfl, hfull (List.cons_ne_nil _ _), (hlower [] b [] rfl).2 0 Nat.zero_lt_one,
    fun caller => (hdrives w caller rfl rfl fun _ hv => absurd hv List.not_mem_nil).1 rfl⟩

end DrivenSequencer

end ConsensusCore
