import ConsensusCore.Proofs.Log.Incident
import ConsensusCore.Proofs.Log.Tracking

/-!
# Readers on a workbench

Readers are known by their names on a workbench. Starting one and reading with it changes
nothing but this reader (`Workbench.run_reader`): what is put under its name is a reader of
the log (`Workbench.run_starts`), or the reader after one more message
(`Workbench.run_read`). Sealing the head keeps all of them (`Workbench.run_rotates`).
-/

namespace ConsensusCore

/-- The action starts a reader with a name. -/
def WorkbenchAction.Starts (name : String) : WorkbenchAction → Prop
  | newReader id | searchLatest id | search id _ => id = name
  | _ => False

namespace Workbench

variable {w : Workbench} {log : Log} {a : WorkbenchAction} {name name' : String} {r : Reader}

theorem log?_putLog (h : log.registry = registry) : (w.putLog log).log? = some log := by
  obtain ⟨d, g, _⟩ := log
  subst h
  rfl

theorem withLog_of_log (h : w.log? = some log) (f : Log → WorkbenchAnswer × Workbench) :
    w.withLog f = f log := by
  obtain ⟨g, hg, rfl⟩ := Option.map_eq_some_iff.1 h
  simp only [withLog, hg]

theorem lookup_putReader (w : Workbench) (name : String) (f : Follower) (name' : String) :
    (w.putReader name f).readers.lookup name' =
      if name' = name then some f else w.readers.lookup name' := by
  rw [putReader, List.lookup_cons]
  by_cases h : name' = name
  · rw [if_pos h, h, beq_self_eq_true]
  · rw [if_neg h, beq_false_of_ne h]
    exact (lookup_filter_ne w.readers name' name).trans (if_neg h)

/-- Starting a reader and reading with it changes nothing but this reader. -/
theorem run_reader (w : Workbench) (ha : a = .read name ∨ a.Starts name) :
    (w.run a).2.log? = w.log? ∧
      ∀ name', name' ≠ name → (w.run a).2.readers.lookup name' = w.readers.lookup name' := by
  have hput : ∀ f, (w.putReader name f).log? = w.log? ∧
      ∀ name', name' ≠ name → (w.putReader name f).readers.lookup name' = w.readers.lookup name' :=
    fun f => ⟨rfl, fun name' hname => by rw [lookup_putReader, if_neg hname]⟩
  have hsame : w.log? = w.log? ∧
      ∀ name', name' ≠ name → w.readers.lookup name' = w.readers.lookup name' :=
    ⟨rfl, fun _ _ => rfl⟩
  rcases ha with rfl | ha
  · simp only [run, withReader]
    split
    · exact hsame
    · split
      · exact hsame
      · exact hput _
  cases a with
  | newReader id =>
    cases ha
    simp only [run, withLog]
    split
    · split
      · exact hput _
      · exact hsame
    · exact hsame
  | searchLatest id =>
    cases ha
    simp only [run, withLog]
    split
    · split
      · exact hput _
      · exact hsame
      · exact hsame
    · exact hsame
  | search id height =>
    cases ha
    simp only [run, withLog]
    split
    · split
      · exact hput _
      · exact hsame
      · exact hsame
    · exact hsame
  | _ => exact ha.elim

/-- What is started is a reader of the log. -/
theorem run_starts {position : Nat × Nat} {height : Option UInt64} (hlog : w.log? = some log)
    (ha : a.Starts name) (hanswer : (w.run a).1 = .reader position height) :
    ∃ r, log.Starts r ∧ r.position = position ∧ (w.run a).2 = w.putReader name ⟨r, none⟩ := by
  cases a with
  | newReader id =>
    cases ha
    simp only [run, withLog_of_log hlog] at hanswer ⊢
    split at hanswer
    · next r hr =>
      cases hanswer
      exact ⟨r, .newReader hr, rfl, rfl⟩
    · cases hanswer
  | searchLatest id =>
    cases ha
    simp only [run, withLog_of_log hlog] at hanswer ⊢
    split at hanswer
    · next h r hr =>
      cases hanswer
      exact ⟨r, .search hr, rfl, rfl⟩
    · cases hanswer
    · cases hanswer
  | search id h =>
    cases ha
    simp only [run, withLog_of_log hlog] at hanswer ⊢
    split at hanswer
    · next r hr =>
      cases hanswer
      refine ⟨r, ?_, rfl, rfl⟩
      rw [Log.searchEndHeight] at hr
      cases hsearch : log.search (· == h) with
      | error e => rw [hsearch] at hr; cases hr
      | ok found =>
        rw [hsearch] at hr
        obtain ⟨⟨h', r'⟩, rfl, rfl⟩ := Option.map_eq_some_iff.1 (Except.ok.inj hr)
        exact .search hsearch
    · cases hanswer
    · cases hanswer
  | _ => exact ha.elim

theorem run_read (hlog : w.log? = some log) (hr : w.readers.lookup name = some ⟨r, none⟩) :
    w.run (.read name) = (.read [(log.read r).1] (log.read r).2.position,
      w.putReader name ⟨(log.read r).2, none⟩) := by
  obtain ⟨g, hg, rfl⟩ := Option.map_eq_some_iff.1 hlog
  simp only [run, withReader, hr, hg, Option.none_or]

/-- Sealing the head, or looking whether that is due, keeps the readers. -/
theorem run_rotates {s : Shelf} {id : FileId} {c : Chapters} (hlog : w.log? = some log)
    (hshows : log.Shows s id c) (ha : a = .rotate ∨ a = .checkLimits)
    (hnumber : log.group.maxIndex < Saturating.ceiling)
    (hmin : (w.run a).2.group.map Group.minIndex = some log.group.minIndex) :
    (w.run a).2.readers = w.readers ∧ ∃ log' s' id' c', (w.run a).2.log? = some log' ∧
      log'.Shows s' id' c' ∧ log.Sealing s c log' s' c' := by
  rcases ha with rfl | rfl
  · simp only [run, withLog_of_log hlog]
    cases hrotate : log.rotate with
    | error e => exact ⟨rfl, log, s, id, c, hlog, hshows, .refl log s c⟩
    | ok log' =>
      obtain ⟨s', id', c', hshows', hsealing⟩ := hshows.rotate hnumber hrotate
      exact ⟨rfl, log', s', id', c', log?_putLog hshows'.registry, hshows', hsealing⟩
  · have hrun : (w.run .checkLimits).2 = w.putLog log.checkLimits.2 := by
      simp only [run, withLog_of_log hlog]
      obtain ⟨result, log'⟩ := log.checkLimits
      cases result <;> rfl
    rw [hrun] at hmin ⊢
    obtain ⟨s', id', c', hshows', hsealing⟩ :=
      hshows.checkLimits hnumber rfl (Option.some.inj hmin)
    exact ⟨rfl, _, s', id', c', log?_putLog hshows'.registry, hshows', hsealing⟩

end Workbench

end ConsensusCore
