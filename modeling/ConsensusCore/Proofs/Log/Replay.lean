import ConsensusCore.Proofs.Log.Reading

/-!
# Replaying a log

A new reader of an open log yields the chapters that the log has. In a log from which
nothing is deleted, and which has always been opened with the same limit for the length of
envelopes, these are the messages of which the writing was done, unless some of them were
in a head that was cut.
-/

namespace ConsensusCore

/-- The configurations of a log in a directory from which nothing is deleted, with the same
    limit for the length of an envelope. -/
def LogConfig.KeepsAll (dir : String) (max : Nat) (config : LogConfig) : Prop :=
  config.dir = dir ∧ config.maxRecordSize = max ∧ config.totalSizeLimit = 0

variable {dir : String} {max : Nat} {w : Workbench} {log : Log}

theorem LogConfig.KeepsAll.uniform : Uniform (LogConfig.KeepsAll dir max) max :=
  fun _ h => h.2.1

namespace Kept

variable {ok : LogConfig → Prop} {s : Shelf} {c : Chapters} {rest : Bytes}
variable (h : Kept ok dir w s c rest)
include h

/-- The log that is open shows its chapters. -/
theorem shows (hlog : w.log? = some log) (hopen : log.group.isClosed = false) :
    rest = [] ∧ ∃ id, log.Shows s id c := by
  obtain ⟨g, hg, rfl⟩ := Option.map_eq_some_iff.1 hlog
  obtain ⟨rfl, id, hid⟩ := h.opened g hg hopen
  exact ⟨rfl, id, rfl, hid, h.fill, fun m hm => (h.storable m hm).1⟩

theorem config_of_log (hlog : w.log? = some log) :
    ok log.group.config ∧ log.group.config.validate = .ok () := by
  obtain ⟨g, hg, rfl⟩ := Option.map_eq_some_iff.1 hlog
  exact h.config g hg

/-- A new reader yields all that is in the log. -/
theorem replays (hmax : Uniform ok max) (hlog : w.log? = some log)
    (hopen : log.group.isClosed = false) :
    ∃ r, log.newReader = .ok r ∧ r.maxRecordSize = max ∧ Reader.Yields log r c.all := by
  obtain ⟨-, id, hshows⟩ := h.shows hlog hopen
  obtain ⟨r, hr, hahead, hrmax⟩ := Reader.newReader_ahead hshows
  have hconfig : r.maxRecordSize = max := hrmax.trans (hmax _ (h.config_of_log hlog).1)
  refine ⟨r, hr, hconfig, hahead.yields hshows fun m hm => ?_⟩
  exact hconfig ▸ (h.storable m hm).2 max hmax

/-- Without a limit for the total size, what was written stays. -/
theorem all_next (hlimit : ∀ config, ok config → config.totalSizeLimit = 0)
    (a : WorkbenchAction) : (c.next w (.act a)).all = c.all ++ w.writes (.act a) := by
  have htrimmed : w.trimmed (.act a) = 0 := by
    unfold Workbench.trimmed
    split
    · split
      · next g g' hg hg' =>
        rw [Workbench.run_checkLimits hg, Option.some.injEq] at hg'
        rw [← hg', Group.minIndex_checkLimits (hlimit _ (h.config g hg).1), Nat.sub_self]
      · rfl
    · rfl
  -- sealing the head only moves messages from one chapter to another
  have hseal : ((if w.seals (.act a) then c.sealHead else c).drop (w.trimmed (.act a))).all =
      c.all := by
    rw [htrimmed, Chapters.drop_zero]
    split
    · exact c.all_sealHead
    · rfl
  cases a with
  | write m =>
    simp only [Chapters.next, Workbench.writes]
    split
    · exact c.all_write m
    · exact (List.append_nil _).symm
  | _ => exact hseal.trans (List.append_nil _).symm

/-- A run of actions adds the messages of which the writing is done, in order. -/
theorem all_after (hok : ∀ config, ok config → config.dir = dir)
    (hlimit : ∀ config, ok config → config.totalSizeLimit = 0) {actions : List WorkbenchAction}
    (hes : ∀ a ∈ actions, a.Operates ok)
    (hlast : s.last + w.rotations dir (actions.map .act) ≤ Saturating.ceiling) :
    (c.after dir w (actions.map .act)).all = c.all ++ w.written dir (actions.map .act) := by
  induction actions generalizing w s c rest with
  | nil => exact (List.append_nil _).symm
  | cons a actions ih =>
    simp only [List.map_cons, Workbench.rotations] at hlast
    obtain ⟨s₁, rest₁, h₁, hlast₁⟩ :=
      h.next hok (e := .act a) (hes a List.mem_cons_self) (by omega)
    have htail := ih h₁ (fun a' ha' => hes a' (List.mem_cons_of_mem _ ha')) (by omega)
    simp only [List.map_cons, Chapters.after, Workbench.written]
    rw [htail, h.all_next hlimit, List.append_assoc]

end Kept

/-! ## Runs in an empty directory -/

/-- The chapters after any run in an empty directory have the messages that were written. -/
theorem Chapters.all_after_empty (hdir : w.disk.list (.ofText dir) = .ok [])
    (hgroup : w.group = none) {actions : List WorkbenchAction}
    (hactions : ∀ a ∈ actions, a.Operates (LogConfig.KeepsAll dir max))
    (hrotations : w.rotations dir (actions.map .act) < 2 ^ 64) :
    (Chapters.empty.after dir w (actions.map .act)).all = w.written dir (actions.map .act) := by
  obtain ⟨s, hstart, hzero⟩ : ∃ s, Kept (LogConfig.KeepsAll dir max) dir w s .empty [] ∧
      s.last = 0 := Kept.start hdir hgroup
  refine hstart.all_after (fun _ h => h.1) (fun _ h => h.2.2) hactions ?_
  rw [hzero, Nat.zero_add]
  exact Nat.le_pred_of_lt hrotations

/-- After any run in an empty directory, a new reader yields the messages that were written. -/
theorem Workbench.replays (hdir : w.disk.list (.ofText dir) = .ok []) (hgroup : w.group = none)
    {actions : List WorkbenchAction}
    (hactions : ∀ a ∈ actions, a.Operates (LogConfig.KeepsAll dir max))
    (hrotations : w.rotations dir (actions.map .act) < 2 ^ 64)
    (hlog : (w.after dir (actions.map .act)).log? = some log) (hopen : log.group.isClosed = false) :
    ∃ r, log.newReader = .ok r ∧ r.maxRecordSize = max ∧
      Reader.Yields log r (w.written dir (actions.map .act)) := by
  obtain ⟨s, rest, hkept, -⟩ := Kept.of_run (fun _ h => h.1) hdir hgroup (actions.map .act)
    (List.forall_mem_map.2 hactions) hrotations
  obtain ⟨r, hr, hmax, hyields⟩ := hkept.replays LogConfig.KeepsAll.uniform hlog hopen
  rw [Chapters.all_after_empty hdir hgroup hactions hrotations] at hyields
  exact ⟨r, hr, hmax, hyields⟩

/-- A log that is open writes the messages of a length that its readers accept. -/
theorem Log.write_iff (hregistry : log.registry = Workbench.registry)
    (hopen : log.group.isClosed = false) (m : Input) : (∃ log', log.write m = .ok log') ↔
      m.envelope.length ≤ log.group.config.maxRecordSize := by
  have hencode : log.registry.encode m = .ok m.envelope := hregistry ▸ Registry.encode_inputs m
  obtain ⟨id, hid⟩ : ∃ id, log.group.head = some id := by
    simpa [Group.isClosed, Option.isSome_iff_exists] using hopen
  simp only [Log.write, Log.envelope, hencode]
  by_cases hm : log.group.config.maxRecordSize < m.envelope.length
  · simp [if_pos hm, Nat.not_le.2 hm]
  · simp [if_neg hm, Nat.not_lt.1 hm, Group.write, hid]

/-- After any run in an empty directory, a new reader of the log yields the messages of which
    the writing was done, and nothing else; and the log goes on to write just the messages
    that its readers accept. Writing that fails leaves everything as it was. -/
theorem replay_eq_written (hdir : w.disk.list (.ofText dir) = .ok []) (hgroup : w.group = none)
    {actions : List WorkbenchAction}
    (hactions : ∀ a ∈ actions, a.Operates (LogConfig.KeepsAll dir max))
    (hrotations : w.rotations dir (actions.map .act) < 2 ^ 64) :
    (∀ log, (w.after dir (actions.map .act)).log? = some log → log.group.isClosed = false →
      ∃ r, log.newReader = .ok r ∧
        Reader.Yields log r (w.written dir (actions.map .act)) ∧
        ∀ m, (∃ log', log.write m = .ok log') ↔
          (Record.read r.maxRecordSize (Record.encode m.envelope)).1 = .record m.envelope) ∧
      ∀ m e, ((w.after dir (actions.map .act)).run (.write m)).1 = .failed e →
        ((w.after dir (actions.map .act)).run (.write m)).2 = w.after dir (actions.map .act) ∧
          (e = .closed ∨ e = .recordTooLarge m.envelope.length max) := by
  obtain ⟨s, rest, hkept, -⟩ := Kept.of_run (fun _ h => h.1) hdir hgroup (actions.map .act)
    (List.forall_mem_map.2 hactions) hrotations
  refine ⟨fun log hlog hopen => ?_, fun m e he => ?_⟩
  · obtain ⟨r, hr, hrmax, hyields⟩ := Workbench.replays hdir hgroup hactions hrotations hlog hopen
    obtain ⟨⟨-, hmax, -⟩, hvalid⟩ := hkept.config_of_log hlog
    obtain ⟨-, id, hshows⟩ := hkept.shows hlog hopen
    refine ⟨r, hr, hyields, fun m => ?_⟩
    rw [Log.write_iff hshows.registry hopen, hmax, hrmax,
      Record.read_encode_iff (hmax ▸ LogConfig.maxRecordSize_lt hvalid)]
  · obtain ⟨hsame, g, hg, herror⟩ := Workbench.run_write_failed he
    rw [(hkept.config g hg).1.2.1] at herror
    exact ⟨hsame, herror⟩

/-- A run that closes two heights, with the head sealed in between. -/
def twoHeights : List WorkbenchAction :=
  [.openLog (LogConfig.dev "root") false, .write (.endHeight ⟨5⟩), .rotate,
    .write (.endHeight ⟨6⟩)]

theorem list_root : (Workbench.empty "root").disk.list (.ofText "root") = .ok [] := rfl

theorem operates_twoHeights :
    ∀ a ∈ twoHeights, a.Operates (LogConfig.KeepsAll "root" (64 * 1024)) := by
  simp [twoHeights, WorkbenchAction.Operates, LogConfig.KeepsAll, LogConfig.dev]

theorem rotations_twoHeights :
    (Workbench.empty "root").rotations "root" (twoHeights.map .act) < 2 ^ 64 :=
  Nat.lt_of_le_of_lt (Workbench.rotations_le_length _ _ _) (by decide)

theorem written_twoHeights : (Workbench.empty "root").written "root" (twoHeights.map .act) =
    [.endHeight ⟨5⟩, .endHeight ⟨6⟩] := by
  decide +kernel

theorem Workbench.exists_log (h : (w.log?.any fun log => !log.group.isClosed) = true) :
    ∃ log, w.log? = some log ∧ log.group.isClosed = false := by
  simpa [Option.any_eq_true] using h

theorem log_twoHeights : ∃ log,
    ((Workbench.empty "root").after "root" (twoHeights.map .act)).log? = some log ∧
      log.group.isClosed = false :=
  Workbench.exists_log (by decide +kernel)

theorem replay_twoHeights : ∃ log r,
    ((Workbench.empty "root").after "root" (twoHeights.map .act)).log? = some log ∧
      log.newReader = .ok r ∧ Reader.Yields log r [.endHeight ⟨5⟩, .endHeight ⟨6⟩] := by
  obtain ⟨log, hlog, hopen⟩ := log_twoHeights
  obtain ⟨r, hr, hyields, -⟩ :=
    (replay_eq_written list_root rfl operates_twoHeights rotations_twoHeights).1 log hlog hopen
  rw [written_twoHeights] at hyields
  exact ⟨log, r, hlog, hr, hyields⟩

end ConsensusCore
