import ConsensusCore.Proofs.Log.Replay

/-!
# Recovery of a log

When the process stops, it may leave a head that ends inside of a record, or no head at
all. The log is opened all the same: the torn record is cut off, and a missing head is
created. What is left are the chapters of the tails and the messages of the head before
the cut, and to these the log adds what is written from then on.
-/

namespace ConsensusCore

open LogConfig

variable {dir : String} {max : Nat} {w : Workbench}

/-- The messages that are left when the process stops: all, or those in the tails and those
    of which the records end before the cut. -/
def Chapters.left (c : Chapters) : Incident → List Input
  | .crash n => c.tails.flatten ++ within n c.head
  | _ => c.all

theorem Chapters.all_next_of_stop {e : Incident} (c : Chapters) (hstop : ∀ a, e ≠ .act a) :
    (c.next w e).all = c.left e := by
  cases e with
  | act a => exact absurd rfl (hstop a)
  | crash n => rfl
  | halt =>
    simp only [next, Workbench.trimmed, drop_zero, left]
    split
    · exact c.all_sealHead
    · rfl

/-- The log is opened, whatever state it was left in. -/
theorem Kept.opens {ok : LogConfig → Prop} {s : Shelf} {c : Chapters} {rest : Bytes}
    (h : Kept ok dir w s c rest) {config : LogConfig} (watched : Bool) (hdir : config.dir = dir)
    (hvalid : config.validate = .ok ()) (hadm : (Route.ofText dir).Admits headName)
    (hlast : s.last ≤ Saturating.ceiling) :
    ∃ log, (w.run (.openLog config watched)).2.log? = some log ∧ log.group.isClosed = false := by
  have hdir' : Group.dir config = s.dir := by rw [h.dir, Group.dir, hdir]
  obtain ⟨g, d, hopen, hclosed⟩ := Group.openIn_ok h.on hdir' hlast (h.dir ▸ hadm)
  obtain ⟨-, hg⟩ := Workbench.run_openLog (w := w) hvalid watched
  rw [hopen] at hg
  exact ⟨_, by rw [Workbench.log?, hg]; rfl, hclosed⟩

/-- However often the process has stopped, in a run in an empty directory, the log can be
    opened again. A new reader then yields the messages that were left when the process
    stopped the last time, followed by those of which the writing has been done since. -/
theorem recovery_of_stop (hdir : w.disk.list (.ofText dir) = .ok []) (hgroup : w.group = none)
    (hadm : (Route.ofText dir).Admits headName) {es : List Incident} {e : Incident}
    (hes : ∀ e ∈ es, e.Operates (LogConfig.KeepsAll dir max)) (hstop : ∀ a, e ≠ .act a)
    {config : LogConfig} (hconfig : config.KeepsAll dir max) (hvalid : config.validate = .ok ())
    (watched : Bool) {actions : List WorkbenchAction}
    (hactions : ∀ a ∈ actions, a.Operates (LogConfig.KeepsAll dir max))
    (hrotations : w.rotations dir
      (es ++ e :: .act (.openLog config watched) :: actions.map .act) < 2 ^ 64) :
    let left := (Chapters.empty.after dir w es).left e
    let opened := ((w.after dir es).next dir e).run (.openLog config watched)
    opened.1.isDone = true ∧
      (∃ log, opened.2.log? = some log ∧ log.group.isClosed = false) ∧
      ∀ log, (opened.2.after dir (actions.map .act)).log? = some log →
        log.group.isClosed = false → ∃ r, log.newReader = .ok r ∧
          Reader.Yields log r (left ++ opened.2.written dir (actions.map .act)) := by
  have hok : ∀ config, LogConfig.KeepsAll dir max config → config.dir = dir := fun _ h => h.1
  rw [Workbench.rotations_append] at hrotations
  simp only [Workbench.rotations, Workbench.next_act] at hrotations
  have hceiling : Saturating.ceiling = 2 ^ 64 - 1 := rfl
  -- the run up to the stop, the stop, and the log opened again
  obtain ⟨s₁, rest₁, h₁, hlast₁⟩ := Kept.of_run hok hdir hgroup es hes (by omega)
  have hoperates : e.Operates (LogConfig.KeepsAll dir max) := by
    cases e with
    | act a => exact absurd rfl (hstop a)
    | crash n => exact ⟨max, LogConfig.KeepsAll.uniform⟩
    | halt => trivial
  obtain ⟨s₂, rest₂, h₂, hlast₂⟩ := h₁.next hok hoperates (by omega)
  obtain ⟨log, hlog, hopen⟩ := h₂.opens watched hconfig.1 hvalid hadm (by omega)
  obtain ⟨s₃, rest₃, h₃, hlast₃⟩ := h₂.openLog watched hconfig hconfig.1 (by omega)
  refine ⟨?_, ⟨log, hlog, hopen⟩, fun log' hlog' hopen' => ?_⟩
  · obtain ⟨g, hg, -⟩ := Option.map_eq_some_iff.1 hlog
    rw [Workbench.isDone_run_openLog, hg]
    rfl
  · obtain ⟨s', rest', h', -⟩ := h₃.after hok (actions.map .act)
      (List.forall_mem_map.2 hactions) (by omega)
    obtain ⟨r, hr, -, hyields⟩ := h'.replays LogConfig.KeepsAll.uniform hlog' hopen'
    rw [h₃.all_after hok (fun _ h => h.2.2) hactions (by omega),
      Chapters.all_next_of_stop _ hstop] at hyields
    exact ⟨r, hr, hyields⟩

theorem admits_root : (Route.ofText "root").Admits headName := by decide +kernel

/-- The log is opened after the head has been cut inside of its only record. -/
def reopened : WorkbenchAnswer × Workbench :=
  (((Workbench.empty "root").after "root" (twoHeights.map .act)).next "root" (.crash 10)).run
    (.openLog (LogConfig.dev "root") false)

theorem recovery_twoHeights : ∃ log r,
    (reopened.2.after "root" [.act (.write (.endHeight ⟨7⟩))]).log? = some log ∧
      log.newReader = .ok r ∧ Reader.Yields log r [.endHeight ⟨5⟩, .endHeight ⟨7⟩] := by
  obtain ⟨log, hlog, hopen⟩ : ∃ log,
      (reopened.2.after "root" [.act (.write (.endHeight ⟨7⟩))]).log? = some log ∧
        log.group.isClosed = false :=
    Workbench.exists_log (by decide +kernel)
  have hmessages : (Chapters.empty.after "root" (.empty "root") (twoHeights.map .act)).left
        (.crash 10) ++ reopened.2.written "root" [.act (.write (.endHeight ⟨7⟩))] =
      [.endHeight ⟨5⟩, .endHeight ⟨7⟩] := by decide +kernel
  have hes : ∀ e ∈ twoHeights.map Incident.act,
      e.Operates (LogConfig.KeepsAll "root" (64 * 1024)) :=
    List.forall_mem_map.2 operates_twoHeights
  have hconfig : (LogConfig.dev "root").KeepsAll "root" (64 * 1024) := ⟨rfl, rfl, rfl⟩
  have hactions : ∀ a ∈ [WorkbenchAction.write (.endHeight ⟨7⟩)],
      a.Operates (LogConfig.KeepsAll "root" (64 * 1024)) := by simp [WorkbenchAction.Operates]
  have hrotations : (Workbench.empty "root").rotations "root"
      (twoHeights.map .act ++ .crash 10 :: .act (.openLog (LogConfig.dev "root") false) ::
        [WorkbenchAction.write (.endHeight ⟨7⟩)].map .act) < 2 ^ 64 :=
    Nat.lt_of_le_of_lt (Workbench.rotations_le_length _ _ _) (by decide)
  obtain ⟨-, -, hrecovery⟩ := recovery_of_stop list_root rfl admits_root hes (fun a h => by cases h)
    hconfig rfl false hactions hrotations
  obtain ⟨r, hr, hyields⟩ := hrecovery log hlog hopen
  exact ⟨log, r, hlog, hr, hmessages ▸ hyields⟩

end ConsensusCore
