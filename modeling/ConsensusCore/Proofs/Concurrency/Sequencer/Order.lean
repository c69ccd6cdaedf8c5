import ConsensusCore.Proofs.Concurrency.Sequencer

/-!
# Results that wait

The results that wait are kept by number, and all have a later one than the next that is to come
out: with that one, they would have come out as well. So if nothing is being worked on, although
a task that waits would have been admitted, then nothing waits any more, and all tasks are out.
Whoever drives a sequencer therefore has a worker, or is at the end.

* `Ledger.Sound.steps`: this order is kept, whatever happens;
* `Ledger.Sound.finished`: without workers all tasks are out.
-/

namespace ConsensusCore

theorem insertByIndex_sorted {α : Type} {index : α → Nat} {a : α} {l : List α}
    (hl : l.Pairwise (index · < index ·)) (hnew : ∀ b ∈ l, index b ≠ index a) :
    (insertByIndex index a l).Pairwise (index · < index ·) := by
  induction l with
  | nil => exact List.pairwise_singleton _ _
  | cons b l ih =>
    obtain ⟨hb, hl⟩ := List.pairwise_cons.1 hl
    simp only [insertByIndex]
    split
    next hlt =>
      refine List.pairwise_cons.2 ⟨fun c hc => ?_, ih hl fun c hc => hnew c (List.mem_cons_of_mem _ hc)⟩
      rcases List.mem_cons.1 ((insertByIndex_perm index a l).mem_iff.1 hc) with rfl | hc
      · exact hlt
      · exact hb c hc
    next hnot =>
      have hab : index a < index b :=
        Nat.lt_of_le_of_ne (Nat.le_of_not_lt hnot) (hnew b List.mem_cons_self).symm
      refine List.pairwise_cons.2 ⟨fun c hc => ?_, List.pairwise_cons.2 ⟨hb, hl⟩⟩
      rcases List.mem_cons.1 hc with rfl | hc
      · exact hab
      · exact Nat.lt_trans hab (hb c hc)

namespace Sequencer

variable {τ ρ : Type} {s : Sequencer τ ρ} {e : Numbered τ}

/-- The results that wait are kept by number, and none of them is the next to come out. -/
structure Ordered (s : Sequencer τ ρ) : Prop where
  sorted : s.output.Pairwise (·.index < ·.index)
  later : ∀ r ∈ s.output, s.nextEmit < r.index

/-- As many tasks are being worked on as may, or none waits, unless the sequencer is stopped. -/
def Full (s : Sequencer τ ρ) : Prop :=
  s.aborted = false → s.input = [] ∨ s.config.limit ≤ s.running.length

/-- Of what is kept by number, nothing can come out after what has. -/
theorem lt_of_mem_takeReady {next : Nat} {output : List (Ready τ ρ)}
    (hsorted : output.Pairwise (·.index < ·.index)) (hle : ∀ r ∈ output, next ≤ r.index) :
    ∀ r ∈ (takeReady next output).2, next + (takeReady next output).1.length < r.index := by
  induction output generalizing next with
  | nil => exact fun _ hr => absurd hr List.not_mem_nil
  | cons r output ih =>
    obtain ⟨hfirst, hsorted⟩ := List.pairwise_cons.1 hsorted
    simp only [takeReady]
    split
    next hnext =>
      intro r' hr'
      have hle' : ∀ q ∈ output, next + 1 ≤ q.index := fun q hq => hnext ▸ hfirst q hq
      have hlt := ih hsorted hle' r' hr'
      rw [List.length_cons]
      omega
    next hnot =>
      have hlt : next < r.index :=
        Nat.lt_of_le_of_ne (hle r List.mem_cons_self) (Ne.symm hnot)
      intro r' hr'
      rcases List.mem_cons.1 hr' with rfl | hr'
      · exact hlt
      · exact Nat.lt_trans hlt (hfirst r' hr')

theorem ordered_emit (hsorted : s.output.Pairwise (·.index < ·.index))
    (hle : ∀ r ∈ s.output, s.nextEmit ≤ r.index) : s.emit.1.Ordered := by
  refine ⟨?_, lt_of_mem_takeReady hsorted hle⟩
  refine hsorted.sublist ?_
  conv_rhs => rw [← (takeReady_spec s.nextEmit s.output).1]
  exact List.sublist_append_right _ _

namespace Ordered

/-- A result that is put in its place lets out all whose turn it is. -/
theorem complete (h : s.Ordered) (o : Outcome ρ)
    (hnew : s.aborted = false → s.nextEmit ≤ e.index ∧ ∀ r ∈ s.output, r.index ≠ e.index) :
    (s.complete e o).1.Ordered := by
  cases haborted : s.aborted with
  | true =>
    rw [complete_of_aborted haborted]
    exact ⟨h.sorted, h.later⟩
  | false =>
    obtain ⟨hle, hne⟩ := hnew haborted
    rw [complete_of_not_aborted haborted]
    cases o with
    | success result =>
      refine ordered_emit (insertByIndex_sorted h.sorted hne) fun r hr => ?_
      rcases List.mem_cons.1 ((insertByIndex_perm _ _ _).mem_iff.1 hr) with rfl | hr
      · exact hle
      · exact Nat.le_of_lt (h.later r hr)
    | failure text => exact ⟨h.sorted, h.later⟩
    | panic => exact ⟨h.sorted, h.later⟩
    | lost => exact ⟨h.sorted, h.later⟩

end Ordered

@[simp] theorem config_complete (s : Sequencer τ ρ) (e : Numbered τ) (o : Outcome ρ) :
    (s.complete e o).1.config = s.config := by
  cases haborted : s.aborted with
  | true => rw [complete_of_aborted haborted, dismiss]
  | false =>
    rw [complete_of_not_aborted haborted]
    cases o <;> rfl

/-- Admitting tasks changes what waits and what is being worked on. -/
theorem admitAll_eq (s : Sequencer τ ρ) :
    ∃ input running, s.admitAll.2 = { s with input, running } := by
  simp only [admitAll]
  split
  · exact ⟨s.input, s.running, rfl⟩
  · obtain ⟨input, running, heq, -⟩ := s.admitUpTo_spec s.input.length
    exact ⟨input, running, heq⟩

theorem admitUpTo_full {n : Nat} (hn : s.input.length ≤ n) :
    (s.admitUpTo n).2.input = [] ∨
      (s.admitUpTo n).2.config.limit ≤ (s.admitUpTo n).2.running.length := by
  induction n generalizing s with
  | zero => exact .inl (List.length_eq_zero_iff.1 (Nat.le_zero.1 hn))
  | succ n ih =>
    simp only [admitUpTo]
    split
    next hnext =>
      simp only [admitNext?] at hnext
      split at hnext
      next hinput => exact .inl hinput
      next =>
        split at hnext
        next => cases hnext
        next hlimit => exact .inr (Nat.le_of_not_lt hlimit)
    next e s' hnext =>
      refine ih ?_
      simp only [admitNext?] at hnext
      split at hnext
      next => cases hnext
      next hinput =>
        split at hnext
        next =>
          cases hnext
          rw [hinput, List.length_cons] at hn
          exact Nat.le_of_succ_le_succ hn
        next => cases hnext

/-- Once tasks have been admitted, there is no room for another, or none waits. -/
theorem full_admitAll (s : Sequencer τ ρ) : s.admitAll.2.Full := by
  simp only [admitAll]
  split
  next haborted => exact fun hnot => Bool.noConfusion (hnot.symm.trans haborted)
  next => exact fun _ => admitUpTo_full (Nat.le_refl _)

end Sequencer

namespace Ledger

open Sequencer

variable {τ ρ : Type} {x y : Ledger τ ρ}

/-- Nothing changes how the sequencer works. -/
theorem config_step (hstep : Step x y) : y.sequencer.config = x.sequencer.config := by
  cases hstep with
  | insert hs =>
    simp only [insert?] at hs
    split at hs
    next => cases hs
    next =>
      cases hs
      rfl
  | drive => rfl
  | enter =>
    obtain ⟨input, running, heq⟩ := x.sequencer.admitAll_eq
    dsimp only
    rw [heq]
  | complete => exact config_complete _ _ _
  | leave => rfl
  | stop => rfl
  | clear reset => cases reset <;> rfl

theorem config_steps (hsteps : Steps x y) : y.sequencer.config = x.sequencer.config := by
  induction hsteps with
  | refl => rfl
  | tail _ hstep ih => exact (config_step hstep).trans ih

/-- The ledger is kept, the results that wait are in order, and tasks can be worked on. -/
structure Sound (x : Ledger τ ρ) : Prop where
  kept : x.Kept
  ordered : x.sequencer.Ordered
  limit : 0 < x.sequencer.config.limit

theorem sound_start {config : SequencerConfig} {s : Sequencer τ ρ}
    (hs : Sequencer.new config = .ok s) : (start s).Sound := by
  have hkept := kept_start hs
  simp only [Sequencer.new] at hs
  split at hs
  next => cases hs
  next hlimit =>
    cases hs
    exact ⟨hkept, ⟨.nil, fun _ hr => absurd hr List.not_mem_nil⟩, Nat.pos_of_ne_zero hlimit⟩

namespace Sound

/-- What is being worked on is neither out, nor does its result wait. -/
theorem new_of_mem (h : x.Sound) {e : Numbered τ} (he : e ∈ x.sequencer.running)
    (haborted : x.sequencer.aborted = false) :
    x.sequencer.nextEmit ≤ e.index ∧ ∀ r ∈ x.sequencer.output, r.index ≠ e.index := by
  have hmem : e.index ∈ x.sequencer.running.map (·.index) := List.mem_map_of_mem he
  have hnodup := nodup_of_tasks h.kept.numbers (h.kept.tasks haborted)
  refine ⟨((h.kept.mem_indices_iff haborted).1 (.inr (.inl hmem))).1, fun r hr heq => ?_⟩
  have houtput : e.index ∈ x.sequencer.output.map (·.index) := heq ▸ List.mem_map_of_mem hr
  exact (List.nodup_append.1 (List.nodup_append.1 hnodup).2.1).2.2 _ hmem _ houtput rfl

theorem step (h : x.Sound) (hstep : Step x y) : y.Sound := by
  refine ⟨h.kept.step hstep, ?_, config_step hstep ▸ h.limit⟩
  cases hstep with
  | insert hs =>
    simp only [insert?] at hs
    split at hs
    next => cases hs
    next =>
      cases hs
      exact ⟨h.ordered.sorted, h.ordered.later⟩
  | drive => exact h.ordered
  | enter =>
    obtain ⟨input, running, heq⟩ := x.sequencer.admitAll_eq
    dsimp only
    rw [heq]
    exact ⟨h.ordered.sorted, h.ordered.later⟩
  | @complete before after e o hheld =>
    refine h.ordered.complete o (h.new_of_mem ?_)
    have hworkers := h.kept.workers
    rw [hheld, Option.getD_some] at hworkers
    exact hworkers.mem_iff.2 (List.mem_append_right _ List.mem_cons_self)
  | leave => exact ⟨h.ordered.sorted, h.ordered.later⟩
  | stop => exact ⟨h.ordered.sorted, h.ordered.later⟩
  | clear reset => cases reset <;> exact ⟨.nil, fun _ hr => absurd hr List.not_mem_nil⟩

theorem steps (h : x.Sound) (hsteps : Steps x y) : y.Sound := by
  induction hsteps with
  | refl => exact h
  | tail _ hstep ih => exact ih.step hstep

/-- If nobody works, although whoever waits would have been admitted, nothing waits any more. -/
theorem drained (h : x.Sound) (hfull : x.sequencer.Full) (haborted : x.sequencer.aborted = false)
    (hrunning : x.sequencer.running = []) :
    x.sequencer.nextEmit = x.sequencer.nextInsert ∧ x.sequencer.input = [] ∧
      x.sequencer.output = [] := by
  have hinput : x.sequencer.input = [] := by
    refine (hfull haborted).resolve_right fun hlimit => ?_
    rw [hrunning, List.length_nil] at hlimit
    exact absurd h.limit (Nat.not_lt.2 hlimit)
  have hmem := fun i => h.kept.mem_indices_iff haborted (i := i)
  simp only [hinput, hrunning, List.map_nil, List.not_mem_nil, false_or] at hmem
  -- the next task to come out would be one whose result waits
  have heq : x.sequencer.nextEmit = x.sequencer.nextInsert := by
    refine Nat.le_antisymm h.kept.emitted (Nat.le_of_not_lt fun hlt => ?_)
    obtain ⟨r, hr, hindex⟩ := List.mem_map.1 ((hmem _).2 ⟨Nat.le_refl _, hlt⟩)
    exact absurd (h.ordered.later r hr) (hindex ▸ Nat.lt_irrefl _)
  refine ⟨heq, hinput, List.eq_nil_iff_forall_not_mem.2 fun r hr => ?_⟩
  obtain ⟨hle, hlt⟩ := (hmem r.index).1 (List.mem_map_of_mem hr)
  exact absurd hlt (Nat.not_lt.2 (heq ▸ hle))

/-- If nobody works, although whoever waits would have been admitted, all tasks are out. -/
theorem finished (h : x.Sound) (hfull : x.sequencer.Full) (haborted : x.sequencer.aborted = false)
    (hrunning : x.sequencer.running = []) : x.sequencer.finished = true := by
  rw [Sequencer.finished, h.kept.processed, h.kept.total, (h.drained hfull haborted hrunning).1]
  exact beq_self_eq_true _

end Sound

end Ledger

end ConsensusCore
