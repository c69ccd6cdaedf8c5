import ConsensusCore.Concurrency.Sequencer.Callers
import Mathlib.Data.List.Nodup
import Mathlib.Data.List.Perm.Basic
import Mathlib.Data.List.Range
import Mathlib.Data.List.TakeDrop
import Mathlib.Logic.Relation

/-!
# Runs of a sequencer

Who drives a sequencer has workers, to whom the tasks that it admits are given, and takes
what they bring, in whatever order; the task of a worker that is lost it takes back. It can
go at any time, and its workers with it, and another can come. Beside it others put in tasks,
stop the sequencer and empty it. All this is done in steps (`Ledger.Step`), and put down in a
ledger: which tasks were put in and what was told since the sequencer was new or last emptied.

* `Ledger.Kept.step`: each step keeps the tasks, each in one place;
* `Ledger.in_order`: the results are told in the order of the tasks, each once;
* `DrivenSequencer.steps_drive`: what callers do to a sequencer is done in such steps.
-/

namespace ConsensusCore

/-! ## Lists by number -/

/-- What is put in place of something that looks the same does not change how the list looks. -/
theorem map_set_of_getElem? {α β : Type} {f : α → β} {l : List α} {i : Nat} {a a' : α}
    (ha : l[i]? = some a) (hf : f a' = f a) : (l.set i a').map f = l.map f := by
  have hi := (List.getElem?_eq_some_iff.1 ha).1
  refine List.ext_getElem? fun j => ?_
  rw [List.map_set, List.getElem?_set, List.length_map]
  split
  next hij => rw [← hij, List.getElem?_map, ha, hf, Option.map_some]
  next => rfl

theorem insertByIndex_perm {α : Type} (index : α → Nat) (a : α) (l : List α) :
    (insertByIndex index a l).Perm (a :: l) := by
  induction l with
  | nil => exact .refl _
  | cons b l ih =>
    simp only [insertByIndex]
    split
    · exact (ih.cons b).trans (.swap a b l)
    · exact .refl _

theorem foldr_insertByIndex_perm {α : Type} (index : α → Nat) (l l' : List α) :
    (l.foldr (insertByIndex index) l').Perm (l ++ l') := by
  induction l with
  | nil => exact .refl _
  | cons a l ih => exact (insertByIndex_perm index a _).trans (ih.cons a)

/-- Of things that are numbered one after another, those that are numbered from the first
    number on are the first ones. -/
theorem eq_take_of_range' {τ : Type} {l o : List (Nat × τ)} {n : Nat}
    (hl : l.map (·.1) = List.range' n l.length) (ho : o.map (·.1) = List.range' n o.length)
    (hsub : o ⊆ l) : o = l.take o.length := by
  induction o generalizing l n with
  | nil => rfl
  | cons e o ih =>
    have hmem := hsub List.mem_cons_self
    rcases l with _ | ⟨f, l⟩
    · exact absurd hmem List.not_mem_nil
    · rw [List.map_cons, List.length_cons, List.range'_succ, List.cons.injEq] at hl ho
      have hlater : ∀ g ∈ l, n < g.1 := by
        intro g hg
        have hnumber : g.1 ∈ List.range' (n + 1) l.length := hl.2 ▸ List.mem_map_of_mem hg
        exact (List.mem_range'_1.1 hnumber).1
      have heq : e = f := by
        rcases List.mem_cons.1 hmem with heq | hmem
        · exact heq
        · exact absurd (hlater e hmem) (by rw [ho.1]; exact Nat.lt_irrefl _)
      rw [heq, List.length_cons, List.take_succ_cons, List.cons.injEq]
      refine ⟨rfl, ih hl.2 ho.2 fun g hg => ?_⟩
      rcases List.mem_cons.1 (hsub (List.mem_cons_of_mem _ hg)) with rfl | hmem
      · have hnumber : g.1 ∈ List.range' (n + 1) o.length := ho.2 ▸ List.mem_map_of_mem hg
        exact absurd (List.mem_range'_1.1 hnumber).1 (by rw [hl.1]; exact Nat.lt_irrefl _)
      · exact hmem

/-- A task with its number. -/
def Numbered.label {τ : Type} (e : Numbered τ) : Nat × τ := (e.index, e.task)

/-- A task with its number, which waits with its result. -/
def Ready.label {τ ρ : Type} (r : Ready τ ρ) : Nat × τ := (r.index, r.task)

namespace Sequencer

variable {τ ρ : Type} {s s' : Sequencer τ ρ} {e : Numbered τ}

/-- The tasks that wait, are being worked on, or wait with their results. -/
def tasks (s : Sequencer τ ρ) : List (Nat × τ) :=
  s.input.map Numbered.label ++ (s.running.map Numbered.label ++ s.output.map Ready.label)

theorem map_fst_tasks (s : Sequencer τ ρ) : s.tasks.map (·.1) =
    s.input.map (·.index) ++ (s.running.map (·.index) ++ s.output.map (·.index)) := by
  simp only [tasks, List.map_append, List.map_map]
  rfl

/-- The tasks whose results were told. -/
def results (told : List (Notice τ ρ)) : List (Nat × τ) :=
  told.filterMap fun
    | .result index task _ => some (index, task)
    | .failure .. => none

/-! ## What each operation does to the tasks -/

theorem tasks_enqueue (s : Sequencer τ ρ) (e : Numbered τ) :
    (s.enqueue e).tasks.Perm (e.label :: s.tasks) :=
  ((insertByIndex_perm _ _ _).map _).append_right _

/-- What comes out has the numbers from `next` on. -/
theorem takeReady_spec (next : Nat) (output : List (Ready τ ρ)) :
    (takeReady next output).1 ++ (takeReady next output).2 = output ∧
      (takeReady next output).1.map (·.index) =
        List.range' next (takeReady next output).1.length := by
  induction output generalizing next with
  | nil => exact ⟨rfl, rfl⟩
  | cons r output ih =>
    obtain ⟨happend, hindex⟩ := ih (next + 1)
    simp only [takeReady]
    split
    next hr =>
      refine ⟨by rw [List.cons_append, happend], ?_⟩
      rw [List.map_cons, hindex, hr, List.length_cons, List.range'_succ]
    next => exact ⟨rfl, rfl⟩

theorem results_emitted (out : List (Ready τ ρ)) :
    results (out.map fun r => .result r.index r.task r.result) = out.map Ready.label := by
  induction out with
  | nil => rfl
  | cons r out ih => exact congrArg _ ih

/-- The results that come out are those of the first tasks, in order, and of the others each
    stays where it is. -/
theorem emit_spec {l : List (Nat × τ)} (hl : s.tasks.Perm l)
    (hnumbers : l.map (·.1) = List.range' s.nextEmit l.length) :
    ∃ output k, s.emit.1 = { s with
        output, nextEmit := s.nextEmit + k, processed := s.processed + k } ∧
      k ≤ l.length ∧ results s.emit.2 = l.take k ∧ s.emit.1.tasks.Perm (l.drop k) := by
  obtain ⟨happend, hindex⟩ := takeReady_spec s.nextEmit s.output
  have hout : (takeReady s.nextEmit s.output).1.map Ready.label =
      l.take (takeReady s.nextEmit s.output).1.length := by
    have hmap : ((takeReady s.nextEmit s.output).1.map Ready.label).map (·.1) = List.range'
        s.nextEmit ((takeReady s.nextEmit s.output).1.map Ready.label).length := by
      rw [List.map_map, List.length_map]
      exact hindex
    have htake := eq_take_of_range' hnumbers hmap fun e he => by
      refine hl.subset (List.mem_append_right _ (List.mem_append_right _ ?_))
      rw [← happend, List.map_append]
      exact List.mem_append_left _ he
    rwa [List.length_map] at htake
  refine ⟨(takeReady s.nextEmit s.output).2, (takeReady s.nextEmit s.output).1.length, rfl, ?_,
    (results_emitted _).trans hout, ?_⟩
  · have hlength := congrArg List.length hout
    rw [List.length_map, List.length_take] at hlength
    exact hlength ▸ Nat.min_le_right _ _
  · rw [Sequencer.tasks, ← happend, List.map_append, hout, ← List.append_assoc] at hl
    have hfront := List.perm_append_comm_assoc (l.take (takeReady s.nextEmit s.output).1.length)
      (s.input.map Numbered.label ++ s.running.map Numbered.label)
      ((takeReady s.nextEmit s.output).2.map Ready.label)
    have hsplit := (List.take_append_drop (takeReady s.nextEmit s.output).1.length l).symm
    have hrest := (List.perm_append_left_iff _).1 (hfront.trans (hl.trans (.of_eq hsplit)))
    rwa [List.append_assoc] at hrest

/-- The sequencer once nobody works on a task any more. -/
def dismiss (s : Sequencer τ ρ) (e : Numbered τ) : Sequencer τ ρ :=
  { s with running := s.running.filter fun r => !(r.index == e.index) }

theorem complete_of_aborted (haborted : s.aborted = true) (o : Outcome ρ) :
    s.complete e o = (s.dismiss e, []) :=
  if_pos haborted

theorem complete_of_not_aborted (haborted : s.aborted = false) (o : Outcome ρ) :
    s.complete e o = match o with
      | .success result =>
        emit { s.dismiss e with output := insertByIndex (·.index) ⟨e.index, e.task, result⟩ s.output }
      | .failure text =>
        ((s.dismiss e).enqueue { e with attempt := e.attempt + 1 }, [.failure e.index e.task text])
      | .panic => ((s.dismiss e).enqueue { e with attempt := e.attempt + 1 }, [])
      | .lost => ((s.dismiss e).enqueue e, []) :=
  if_neg (haborted ▸ Bool.false_ne_true)

/-- What a worker brings comes out with what it lets out, or waits, with its result or to be
    worked on again. -/
theorem complete_spec {l : List (Nat × τ)} (haborted : s.aborted = false)
    (hl : (e.label :: (s.dismiss e).tasks).Perm l)
    (hnumbers : l.map (·.1) = List.range' s.nextEmit l.length) (o : Outcome ρ) :
    ∃ input output k, (s.complete e o).1 = { s.dismiss e with
        input, output, nextEmit := s.nextEmit + k, processed := s.processed + k } ∧
      k ≤ l.length ∧ results (s.complete e o).2 = l.take k ∧
      (s.complete e o).1.tasks.Perm (l.drop k) := by
  have hback := (tasks_enqueue (s.dismiss e) e).trans hl
  have hagain := (tasks_enqueue (s.dismiss e) { e with attempt := e.attempt + 1 }).trans hl
  rw [complete_of_not_aborted haborted]
  cases o with
  | success result =>
    have hready : (Sequencer.tasks { s.dismiss e with
        output := insertByIndex (·.index) ⟨e.index, e.task, result⟩ s.output }).Perm l := by
      refine List.Perm.trans ?_ hl
      simp only [Sequencer.tasks, ← List.append_assoc]
      exact (((insertByIndex_perm _ _ _).map _).append_left _).trans List.perm_middle
    obtain ⟨output, k, heq, hk, hresults, htasks⟩ := emit_spec hready hnumbers
    exact ⟨_, output, k, heq, hk, hresults, htasks⟩
  | failure text => exact ⟨_, _, 0, rfl, Nat.zero_le _, rfl, hagain⟩
  | panic => exact ⟨_, _, 0, rfl, Nat.zero_le _, rfl, hagain⟩
  | lost => exact ⟨_, _, 0, rfl, Nat.zero_le _, rfl, hback⟩

/-- Tasks that are admitted are taken from the input, and are being worked on. -/
theorem admitUpTo_spec (n : Nat) (s : Sequencer τ ρ) :
    ∃ input running, (s.admitUpTo n).2 = { s with input, running } ∧
      s.input = (s.admitUpTo n).1 ++ input ∧ running.Perm ((s.admitUpTo n).1 ++ s.running) := by
  induction n generalizing s with
  | zero => exact ⟨s.input, s.running, rfl, rfl, .refl _⟩
  | succ n ih =>
    cases hnext : s.admitNext? with
    | none =>
      simp only [admitUpTo, hnext]
      exact ⟨s.input, s.running, rfl, rfl, .refl _⟩
    | some r =>
      obtain ⟨e, s'⟩ := r
      obtain ⟨input, running, heq, hinput, hrunning⟩ := ih s'
      simp only [admitUpTo, hnext]
      simp only [admitNext?] at hnext
      split at hnext
      next => cases hnext
      next e' rest hrest =>
        split at hnext
        next =>
          cases hnext
          refine ⟨input, running, heq, ?_, ?_⟩
          · rw [hrest, List.cons_append, ← hinput]
          · exact hrunning.trans (((insertByIndex_perm _ _ _).append_left _).trans List.perm_middle)
        next => cases hnext

end Sequencer

/-! ## Steps -/

/-- A sequencer, who works for it, and what has been put in and told since it was new or
    last emptied. -/
structure Ledger (τ ρ : Type) where
  sequencer : Sequencer τ ρ
  /-- The tasks that the workers have of the one who drives the sequencer; `none` if nobody
      does. -/
  workers : Option (List (Numbered τ))
  /-- The tasks that were put in, under the numbers that were given out for them. -/
  inserted : List (Nat × τ)
  told : List (Notice τ ρ)

namespace Ledger

open Sequencer

variable {τ ρ : Type}

/-- What can happen to a sequencer that is driven by one caller at a time. -/
inductive Step (x : Ledger τ ρ) : Ledger τ ρ → Prop
  | insert {task : τ} {index : Nat} {s : Sequencer τ ρ} :
    x.sequencer.insert? task = some (index, s) →
    Step x { x with sequencer := s, inserted := x.inserted ++ [(index, task)] }
  /-- Someone comes to drive the sequencer. -/
  | drive : x.workers = none → Step x { x with workers := some [] }
  | enter {held : List (Numbered τ)} : x.workers = some held →
    Step x { x with
      sequencer := x.sequencer.admitAll.2
      workers := some (held ++ x.sequencer.admitAll.1) }
  /-- A worker brings what its work came to, or is lost. -/
  | complete {before after : List (Numbered τ)} {e : Numbered τ} (o : Outcome ρ) :
    x.workers = some (before ++ e :: after) →
    Step x { x with
      sequencer := (x.sequencer.complete e o).1
      workers := some (before ++ after)
      told := x.told ++ (x.sequencer.complete e o).2 }
  /-- Who drives the sequencer goes, whether at its end or before. -/
  | leave {held : List (Numbered τ)} : x.workers = some held →
    Step x { x with sequencer := x.sequencer.release, workers := none }
  | stop : Step x { x with sequencer := x.sequencer.stop }
  /-- The sequencer is emptied once nothing is being worked on, and can be told to go on. -/
  | clear (reset : Bool) : x.sequencer.running = [] →
    Step x { x with
      sequencer := if reset then { x.sequencer.clear with aborted := false } else x.sequencer.clear
      inserted := []
      told := [] }

/-- The ledger of a sequencer that is new. -/
def start (s : Sequencer τ ρ) : Ledger τ ρ := ⟨s, none, [], []⟩

/-- What can have happened after any number of steps. -/
abbrev Steps : Ledger τ ρ → Ledger τ ρ → Prop := Relation.ReflTransGen Step

/-- What every step keeps. -/
structure Kept (x : Ledger τ ρ) : Prop where
  numbers : x.inserted.map (·.1) = List.range x.sequencer.nextInsert
  total : x.sequencer.total = x.sequencer.nextInsert
  processed : x.sequencer.processed = x.sequencer.nextEmit
  emitted : x.sequencer.nextEmit ≤ x.sequencer.nextInsert
  results : results x.told = x.inserted.take x.sequencer.nextEmit
  tasks : x.sequencer.aborted = false →
    x.sequencer.tasks.Perm (x.inserted.drop x.sequencer.nextEmit)
  workers : x.sequencer.running.Perm (x.workers.getD [])
  apart : (x.sequencer.running.map (·.index)).Nodup

theorem kept_start {config : SequencerConfig} {s : Sequencer τ ρ}
    (hs : Sequencer.new config = .ok s) :
    (start s).Kept := by
  simp only [Sequencer.new] at hs
  split at hs
  next => cases hs
  next =>
    cases hs
    exact ⟨rfl, rfl, rfl, Nat.le_refl _, rfl, fun _ => .refl _, .refl _, List.nodup_nil⟩

variable {x y : Ledger τ ρ}

/-- Tasks that have not been told are numbered one after another. -/
theorem numbers_drop (hnumbers : x.inserted.map (·.1) = List.range x.sequencer.nextInsert) :
    (x.inserted.drop x.sequencer.nextEmit).map (·.1) = List.range' x.sequencer.nextEmit
      (x.inserted.drop x.sequencer.nextEmit).length := by
  have hlength := congrArg List.length hnumbers
  rw [List.length_map, List.length_range] at hlength
  rw [List.map_drop, hnumbers, List.range_eq_range', List.drop_range', List.length_drop, hlength,
    Nat.zero_add, Nat.mul_one]

/-- If every task is in one place, the numbers of those that have not been told are apart. -/
theorem nodup_of_tasks (hnumbers : x.inserted.map (·.1) = List.range x.sequencer.nextInsert)
    (htasks : x.sequencer.tasks.Perm (x.inserted.drop x.sequencer.nextEmit)) :
    (x.sequencer.input.map (·.index) ++
      (x.sequencer.running.map (·.index) ++ x.sequencer.output.map (·.index))).Nodup := by
  rw [← map_fst_tasks, (htasks.map _).nodup_iff, numbers_drop hnumbers]
  exact List.nodup_range' 1

theorem apart_of_tasks (hnumbers : x.inserted.map (·.1) = List.range x.sequencer.nextInsert)
    (htasks : x.sequencer.tasks.Perm (x.inserted.drop x.sequencer.nextEmit)) :
    (x.sequencer.running.map (·.index)).Nodup :=
  (List.nodup_append.1 (List.nodup_append.1 (nodup_of_tasks hnumbers htasks)).2.1).1

/-- What a worker brings is taken out of what is being worked on, and nothing else is. -/
theorem filter_index_perm {l before after : List (Numbered τ)} {e : Numbered τ}
    (hl : l.Perm (before ++ e :: after)) (hnodup : (l.map (·.index)).Nodup) :
    (l.filter fun r => !(r.index == e.index)).Perm (before ++ after) := by
  have hapart : (e.index :: (before ++ after).map (·.index)).Nodup :=
    ((hl.trans List.perm_middle).map _).nodup_iff.1 hnodup
  have hkeep : ((before ++ after).filter fun r => !(r.index == e.index)) = before ++ after := by
    refine List.filter_eq_self.2 fun r hr => ?_
    rw [Bool.not_eq_true', beq_eq_false_iff_ne]
    intro heq
    exact (List.nodup_cons.1 hapart).1 (heq ▸ List.mem_map_of_mem hr)
  have hfilter := (hl.trans List.perm_middle).filter fun r => !(r.index == e.index)
  rwa [List.filter_cons_of_neg (by simp), hkeep] at hfilter

namespace Kept

variable (h : x.Kept)
include h

theorem length_inserted : x.inserted.length = x.sequencer.nextInsert := by
  have hlength := congrArg List.length h.numbers
  rwa [List.length_map, List.length_range] at hlength

/-- The tasks that are in some place are those that were put in and not told. -/
theorem mem_indices_iff (haborted : x.sequencer.aborted = false) {i : Nat} :
    (i ∈ x.sequencer.input.map (·.index) ∨ i ∈ x.sequencer.running.map (·.index) ∨
      i ∈ x.sequencer.output.map (·.index)) ↔
      x.sequencer.nextEmit ≤ i ∧ i < x.sequencer.nextInsert := by
  have hmem := ((h.tasks haborted).map (·.1)).mem_iff (a := i)
  rw [map_fst_tasks, numbers_drop h.numbers, List.mem_range'_1, List.length_drop, h.length_inserted,
    Nat.add_sub_cancel' h.emitted] at hmem
  simpa only [List.mem_append] using hmem

theorem mem_results_iff {i : Nat} :
    i ∈ (Sequencer.results x.told).map (·.1) ↔ i < x.sequencer.nextEmit := by
  rw [h.results, List.map_take, h.numbers, List.take_range, List.mem_range,
    Nat.min_eq_left h.emitted]

/-- As many results as tasks are out just if the results of all tasks were told. -/
theorem finished_iff :
    x.sequencer.finished = true ↔ Sequencer.results x.told = x.inserted := by
  rw [Sequencer.finished, beq_iff_eq, h.processed, h.total, h.results, List.take_eq_self_iff _,
    h.length_inserted]
  exact ⟨fun heq => heq.ge, fun hle => Nat.le_antisymm h.emitted hle⟩

theorem insert {task : τ} {index : Nat} {s : Sequencer τ ρ}
    (hs : x.sequencer.insert? task = some (index, s)) :
    Kept { x with sequencer := s, inserted := x.inserted ++ [(index, task)] } := by
  simp only [insert?] at hs
  split at hs
  next => cases hs
  next haborted =>
    cases hs
    have hle : x.sequencer.nextEmit ≤ x.inserted.length := h.length_inserted ▸ h.emitted
    refine ⟨?_, congrArg (· + 1) h.total, h.processed, Nat.le_succ_of_le h.emitted, ?_,
      fun _ => ?_, h.workers, h.apart⟩
    · rw [List.map_append, h.numbers, List.range_succ]
      rfl
    · exact h.results.trans (List.take_append_of_le_length hle).symm
    · have hdrop : (x.inserted ++ [(x.sequencer.nextInsert, task)]).drop x.sequencer.nextEmit =
          x.inserted.drop x.sequencer.nextEmit ++ [(x.sequencer.nextInsert, task)] :=
        List.drop_append_of_le_length hle
      have htasks := (h.tasks (Bool.not_eq_true _ ▸ haborted)).cons (x.sequencer.nextInsert, task)
      exact (tasks_enqueue x.sequencer ⟨_, 0, task⟩).trans
        (htasks.trans (hdrop ▸ (List.perm_append_singleton _ _).symm))

theorem enter {held : List (Numbered τ)} (hheld : x.workers = some held) :
    Kept { x with
      sequencer := x.sequencer.admitAll.2
      workers := some (held ++ x.sequencer.admitAll.1) } := by
  cases haborted : x.sequencer.aborted with
  | true =>
    simp only [admitAll, haborted, if_true, List.append_nil, ← hheld]
    exact h
  | false =>
    simp only [admitAll, haborted, Bool.false_eq_true, if_false]
    obtain ⟨input, running, heq, hinput, hrunning⟩ :=
      x.sequencer.admitUpTo_spec x.sequencer.input.length
    generalize (admitUpTo x.sequencer.input.length x.sequencer).1 = es at hinput hrunning ⊢
    rw [heq]
    have htasks : Sequencer.tasks { x.sequencer with input, running } |>.Perm
        (x.inserted.drop x.sequencer.nextEmit) := by
      refine List.Perm.trans ?_ (h.tasks haborted)
      rw [Sequencer.tasks, Sequencer.tasks, hinput, List.map_append, List.append_assoc]
      refine (((hrunning.map _).append_right _).append_left _).trans ?_
      rw [List.map_append, List.append_assoc]
      exact List.perm_append_comm_assoc _ _ _
    refine ⟨h.numbers, h.total, h.processed, h.emitted, h.results, fun _ => htasks, ?_,
      apart_of_tasks (x := { x with sequencer := { x.sequencer with input, running } })
        h.numbers htasks⟩
    have hworkers := h.workers
    rw [hheld, Option.getD_some] at hworkers
    exact (hrunning.trans (hworkers.append_left _)).trans List.perm_append_comm

theorem complete {before after : List (Numbered τ)} {e : Numbered τ} (o : Outcome ρ)
    (hheld : x.workers = some (before ++ e :: after)) :
    Kept { x with
      sequencer := (x.sequencer.complete e o).1
      workers := some (before ++ after)
      told := x.told ++ (x.sequencer.complete e o).2 } := by
  have hworkers := h.workers
  rw [hheld, Option.getD_some] at hworkers
  have hothers : (x.sequencer.dismiss e).running.Perm (before ++ after) :=
    filter_index_perm hworkers h.apart
  cases haborted : x.sequencer.aborted with
  | true =>
    rw [complete_of_aborted haborted]
    refine ⟨h.numbers, h.total, h.processed, h.emitted, ?_,
      fun hnot => Bool.noConfusion (hnot.symm.trans haborted), hothers,
      h.apart.sublist (List.filter_sublist.map _)⟩
    dsimp only
    rw [List.append_nil]
    exact h.results
  | false =>
    have htaken : (e.label :: (x.sequencer.dismiss e).tasks).Perm
        (x.inserted.drop x.sequencer.nextEmit) := by
      refine List.Perm.trans ?_ (h.tasks haborted)
      have hrunning : x.sequencer.running.Perm (e :: (x.sequencer.dismiss e).running) :=
        hworkers.trans (List.perm_middle.trans (hothers.symm.cons e))
      refine List.perm_middle.symm.trans (List.Perm.append_left _ ?_)
      exact ((hrunning.map _).append_right _).symm
    obtain ⟨input, output, k, heq, hk, hresults, htasks⟩ :=
      complete_spec haborted htaken (numbers_drop h.numbers) o
    generalize x.sequencer.complete e o = r at heq hresults htasks ⊢
    obtain ⟨s, notices⟩ := r
    obtain rfl : s = _ := heq
    rw [List.length_drop, h.length_inserted] at hk
    rw [List.drop_drop] at htasks
    refine ⟨h.numbers, h.total, congrArg (· + k) h.processed, ?_, ?_, fun _ => htasks, hothers,
      h.apart.sublist (List.filter_sublist.map _)⟩
    · exact Nat.add_le_of_le_sub' h.emitted hk
    · dsimp only at hresults ⊢
      rw [Sequencer.results, List.filterMap_append, List.take_add, ← hresults, ← h.results]
      rfl

theorem leave : Kept { x with sequencer := x.sequencer.release, workers := none } := by
  refine ⟨h.numbers, h.total, h.processed, h.emitted, h.results, fun haborted => ?_, .refl _,
    List.nodup_nil⟩
  refine List.Perm.trans ?_ (h.tasks haborted)
  have hback := foldr_insertByIndex_perm (·.index) x.sequencer.running x.sequencer.input
  have haborted' : x.sequencer.aborted = false := haborted
  simp only [Sequencer.tasks, release, haborted', Bool.false_eq_true, if_false, List.map_nil,
    List.nil_append, ← List.append_assoc]
  refine List.Perm.append_right _ ?_
  rw [← List.map_append]
  exact (hback.trans List.perm_append_comm).map _

theorem stop : Kept { x with sequencer := x.sequencer.stop } :=
  ⟨h.numbers, h.total, h.processed, h.emitted, h.results, fun hnot => Bool.noConfusion hnot,
    h.workers, h.apart⟩

theorem clear (reset : Bool) (hempty : x.sequencer.running = []) :
    Kept { x with
      sequencer := if reset then { x.sequencer.clear with aborted := false } else x.sequencer.clear
      inserted := []
      told := [] } := by
  have htasks : x.sequencer.clear.tasks.Perm [] := by
    simp [Sequencer.tasks, Sequencer.clear, hempty]
  cases reset with
  | true => exact ⟨rfl, rfl, rfl, Nat.le_refl _, rfl, fun _ => htasks, h.workers, h.apart⟩
  | false => exact ⟨rfl, rfl, rfl, Nat.le_refl _, rfl, fun _ => htasks, h.workers, h.apart⟩

theorem step (hstep : Step x y) : y.Kept := by
  cases hstep with
  | insert hs => exact h.insert hs
  | drive hnobody =>
    refine ⟨h.numbers, h.total, h.processed, h.emitted, h.results, h.tasks, ?_, h.apart⟩
    have hworkers := h.workers
    rwa [hnobody] at hworkers
  | enter hheld => exact h.enter hheld
  | complete o hheld => exact h.complete o hheld
  | leave => exact h.leave
  | stop => exact h.stop
  | clear reset hempty => exact h.clear reset hempty

theorem steps (hsteps : Steps x y) : y.Kept := by
  induction hsteps with
  | refl => exact h
  | tail _ hstep ih => exact ih.step hstep

end Kept

/-- Whatever happens to a sequencer, the results are told in the order of the tasks, each once,
    and each task whose result was not told is in one place, unless the sequencer is stopped. -/
theorem in_order {config : SequencerConfig} {s : Sequencer τ ρ}
    (hs : Sequencer.new config = .ok s) (hx : Steps (start s) x) :
    x.inserted.map (·.1) = List.range x.sequencer.nextInsert ∧
      x.sequencer.nextEmit ≤ x.sequencer.nextInsert ∧
      results x.told = x.inserted.take x.sequencer.nextEmit ∧
      x.sequencer.processed = x.sequencer.nextEmit ∧
      x.sequencer.total = x.sequencer.nextInsert ∧
      (x.sequencer.aborted = false → (x.sequencer.input.map Numbered.label ++
        (x.sequencer.running.map Numbered.label ++ x.sequencer.output.map Ready.label)).Perm
          (x.inserted.drop x.sequencer.nextEmit)) := by
  have h := (kept_start hs).steps hx
  exact ⟨h.numbers, h.emitted, h.results, h.processed, h.total, h.tasks⟩

/-- The second of two tasks fails, who drives the sequencer goes, and another brings both to
    an end, the second first. -/
theorem in_order_two_tasks :
    let s : Sequencer String Nat := ⟨⟨2, .zero⟩, [], [], [], 0, 0, 0, 0, false⟩
    let x : Ledger String Nat := ⟨⟨⟨2, .zero⟩, [], [], [], 2, 2, 2, 2, false⟩, some [],
      [(0, "a"), (1, "b")], [.failure 1 "b" "no", .result 0 "a" 10, .result 1 "b" 11]⟩
    Sequencer.new ⟨2, .zero⟩ = .ok s ∧ Steps (start s) x ∧
      results x.told = x.inserted.take x.sequencer.nextEmit := by
  intro s x
  have hs : Sequencer.new ⟨2, .zero⟩ = .ok s := rfl
  let a : Numbered String := ⟨0, 0, "a"⟩
  let b : Numbered String := ⟨1, 0, "b"⟩
  let b' : Numbered String := ⟨1, 1, "b"⟩
  have hinsert : Steps (start s)
      ⟨⟨⟨2, .zero⟩, [a, b], [], [], 2, 0, 2, 0, false⟩, none, x.inserted, []⟩ :=
    (Relation.ReflTransGen.refl.tail (@Step.insert _ _ _ "a" _ _ rfl)).tail
      (@Step.insert _ _ _ "b" _ _ rfl)
  have hentered : Steps (start s)
      ⟨⟨⟨2, .zero⟩, [], [a, b], [], 2, 0, 2, 0, false⟩, some [a, b], x.inserted, []⟩ :=
    (hinsert.tail (.drive rfl)).tail (@Step.enter _ _ _ [] rfl)
  have hleave : Steps (start s) ⟨⟨⟨2, .zero⟩, [a, b'], [], [], 2, 0, 2, 0, false⟩, none, x.inserted,
      [.failure 1 "b" "no"]⟩ :=
    (hentered.tail (@Step.complete _ _ _ [a] [] b (.failure "no") rfl)).tail (.leave rfl)
  have hagain : Steps (start s) ⟨⟨⟨2, .zero⟩, [], [a, b'], [], 2, 0, 2, 0, false⟩, some [a, b'],
      x.inserted, [.failure 1 "b" "no"]⟩ :=
    (hleave.tail (.drive rfl)).tail (@Step.enter _ _ _ [] rfl)
  have hx : Steps (start s) x :=
    (hagain.tail (@Step.complete _ _ _ [a] [] b' (.success 11) rfl)).tail
      (@Step.complete _ _ _ [] [] a (.success 10) rfl)
  exact ⟨hs, hx, (in_order hs hx).2.2.1⟩

end Ledger

/-! ## The driven sequencer -/

namespace DrivenSequencer

open Sequencer Ledger

variable {w : DrivenSequencer} {caller : Caller} {p : Polled DrivenSequencer Call Event}
  {inserted : List (Nat × Task)} {told : List (Notice Task String)}

/-- The ledger of a sequencer whose workers are those of the caller that drives it. -/
def ledger (w : DrivenSequencer) (inserted : List (Nat × Task)) (told : List (Notice Task String)) :
    Ledger Task String :=
  ⟨w.sequencer, some (w.workers.map (·.entry)), inserted, told⟩

/-- What is told by what happens. -/
def notices (events : List Event) : List (Notice Task String) :=
  events.filterMap fun
    | .notice n => some n
    | _ => none

/-- Admitting tasks, each with a worker, is a step. -/
theorem step_assign (w : DrivenSequencer) (caller : Caller) :
    Step (w.ledger inserted told) ((w.assign caller).ledger inserted told) := by
  have hstep : Step (w.ledger inserted told) _ := .enter rfl
  simpa [ledger, assign, Function.comp_def] using hstep

theorem takeFinished_spec {vs rest : List Worker} {e : Numbered Task} {o : Outcome String}
    (h : takeFinished caller vs = some (e, o, rest)) :
    ∃ before v after, vs = before ++ v :: after ∧ v.entry = e ∧ rest = before ++ after := by
  induction vs generalizing rest with
  | nil => cases h
  | cons v vs ih =>
    simp only [takeFinished] at h
    split at h
    next =>
      cases h
      exact ⟨[], v, vs, rfl, rfl, rfl⟩
    next =>
      obtain ⟨⟨e', o', rest'⟩, hrest, heq⟩ := Option.map_eq_some_iff.1 h
      cases heq
      obtain ⟨before, u, after, rfl, hu, rfl⟩ := ih hrest
      exact ⟨v :: before, u, after, rfl, hu, rfl⟩

theorem notices_map (ns : List (Notice Task String)) : notices (ns.map .notice) = ns := by
  induction ns with
  | nil => rfl
  | cons n ns ih => exact congrArg _ ih

/-- So is taking what one worker brings, with what is admitted then. -/
theorem steps_collect {w' : DrivenSequencer} {events : List Event}
    (h : w.collect caller = some (w', events)) :
    Steps (w.ledger inserted told) (w'.ledger inserted (told ++ notices events)) := by
  obtain ⟨⟨e, o, workers⟩, hfinished, heq⟩ := Option.map_eq_some_iff.1 h
  obtain ⟨before, v, after, hworkers, rfl, rfl⟩ := takeFinished_spec hfinished
  obtain ⟨rfl, rfl⟩ := Prod.mk.inj heq
  have hcomplete : Step (w.ledger inserted told) (ledger { w with
      sequencer := (w.sequencer.complete v.entry o).1, workers := before ++ after } inserted
        (told ++ (w.sequencer.complete v.entry o).2)) := by
    simp only [ledger, List.map_append]
    refine .complete o ?_
    rw [hworkers, List.map_append, List.map_cons]
  rw [notices_map]
  exact (Relation.ReflTransGen.single hcomplete).tail (step_assign _ caller)

theorem steps_collectUpTo (n : Nat) (w : DrivenSequencer) (told : List (Notice Task String)) :
    Steps (w.ledger inserted told) ((w.collectUpTo caller n).1.ledger inserted
      (told ++ notices (w.collectUpTo caller n).2)) := by
  induction n generalizing w told with
  | zero =>
    simp only [collectUpTo, notices, List.filterMap_nil, List.append_nil]
    exact .refl
  | succ n ih =>
    simp only [collectUpTo]
    cases hcollect : w.collect caller with
    | none =>
      simp only [notices, List.filterMap_nil, List.append_nil]
      exact .refl
    | some r =>
      obtain ⟨w', events⟩ := r
      dsimp only
      rw [notices, List.filterMap_append, ← List.append_assoc]
      exact (steps_collect hcollect).trans (ih w' _)

/-- A caller that drives a sequencer can go with its workers. -/
theorem step_abandon (w : DrivenSequencer) (caller : Caller) :
    Step (w.ledger inserted told)
      { (w.abandon caller).ledger inserted told with workers := none } :=
  .leave rfl

/-- Driving a sequencer is done in steps. At its end nobody drives it any more. -/
theorem steps_drive (h : w.drive caller = some p) :
    Steps (w.ledger inserted told) { p.state.ledger inserted (told ++ notices p.events) with
      workers := p.rest.map fun _ => p.state.workers.map (·.entry) } := by
  have hcollect : Steps (w.ledger inserted told) (((w.assign caller).collectUpTo caller
      (w.assign caller).workers.length).1.ledger inserted (told ++ notices
        ((w.assign caller).collectUpTo caller (w.assign caller).workers.length).2)) :=
    (Relation.ReflTransGen.single (step_assign w caller)).trans (steps_collectUpTo _ _ _)
  simp only [drive] at h
  generalize (w.assign caller).collectUpTo caller (w.assign caller).workers.length = r at h hcollect
  obtain ⟨w', events⟩ := r
  have hend : ∀ e : Event, notices [e] = [] → Steps (w.ledger inserted told)
      { (w'.abandon caller).ledger inserted (told ++ notices (events ++ [e])) with
        workers := none } := by
    intro e he
    rw [notices, List.filterMap_append, ← notices, ← notices, he, List.append_nil]
    exact hcollect.tail (step_abandon w' caller)
  split at h
  next =>
    split at h
    next => cases h
    next =>
      cases h
      exact hcollect
  next =>
    split at h
    next =>
      cases h
      exact hend _ rfl
    next =>
      split at h
      next =>
        cases h
        exact hend _ rfl
      next =>
        split at h
        next => cases h
        next =>
          cases h
          exact hcollect

/-- Emptying a sequencer is a step, whether someone drives it or not. -/
theorem step_settle {reset : Bool} (h : w.settle caller reset = some p)
    (held : Option (List (Numbered Task))) :
    Step ⟨w.sequencer, held, inserted, told⟩ ⟨p.state.sequencer, held, [], []⟩ := by
  simp only [settle] at h
  split at h
  next hempty =>
    cases h
    exact .clear reset (List.isEmpty_iff.1 hempty)
  next => cases h

/-- Putting a task in is a step, if it is not refused. -/
theorem steps_act (w : DrivenSequencer) (task : Task) (held : Option (List (Numbered Task))) :
    Steps ⟨w.sequencer, held, inserted, told⟩ ⟨(w.act (.insert task)).2.sequencer, held,
      inserted ++ ((w.act (.insert task)).1.map (·, task)).toList, told⟩ := by
  simp only [act]
  cases hinsert : w.sequencer.insert? task with
  | none =>
    simp only [Option.map_none, Option.toList_none, List.append_nil]
    exact .refl
  | some r => exact .single (.insert hinsert)

theorem ledger_update {i : Nat} {v : Worker} (hv : w.workers[i]? = some v) (stage : Stage) :
    (w.update i v stage).ledger inserted told = w.ledger inserted told := by
  have hset : (w.workers.set i { v with stage }).map (·.entry) = w.workers.map (·.entry) :=
    map_set_of_getElem? hv rfl
  simp only [ledger, update, hset]

/-- The workers go on without the sequencer. -/
theorem ledger_work {now : Nat} {w' : DrivenSequencer} {events : List Event}
    (h : w.work now = some (w', events)) :
    w'.ledger inserted (told ++ notices events) = w.ledger inserted told := by
  obtain ⟨⟨v, i⟩, hmem, hwork⟩ := List.exists_of_findSome?_eq_some h
  have hv : w.workers[i]? = some v := List.mem_zipIdx_iff_getElem?.1 hmem
  have hprocess : (w.process now i v).1.ledger inserted (told ++ notices (w.process now i v).2) =
      w.ledger inserted told := by
    simp only [process, notices, List.filterMap_cons, List.filterMap_nil, List.append_nil]
    exact ledger_update (w := { w with called := _ }) hv _
  simp only [workOn] at hwork
  split at hwork
  next =>
    split at hwork
    next =>
      cases hwork
      rw [notices, List.filterMap_nil, List.append_nil]
      exact ledger_update hv _
    next =>
      cases hwork
      exact hprocess
  next =>
    split at hwork
    next =>
      cases hwork
      exact hprocess
    next => cases hwork
  next =>
    split at hwork
    next =>
      cases hwork
      rw [notices, List.filterMap_nil, List.append_nil]
      exact ledger_update hv _
    next => cases hwork
  next => cases hwork

end DrivenSequencer

end ConsensusCore
