import ConsensusCore.Log.Workbench
import ConsensusCore.Proofs.Log.Chapters
import Mathlib.Data.List.Basic

/-!
# What can happen to a log

A log is operated on a workbench, one action after the other. In between, the process may
stop, and with it the log that is open: at a moment when only the first bytes of the head
are on the disk (`Incident.crash`), or while the head is being sealed, when it has been
renamed and there is no other yet (`Incident.halt`).

A run is a sequence of such incidents (`Workbench.after`). What it does to the messages in
the log can be told without looking at the files: a message whose writing is done goes to
the end, the head is sealed or cut, and the oldest segments may go (`Chapters.after`).
-/

namespace ConsensusCore

open LogConfig

deriving instance DecidableEq for WorkbenchAnswer

/-- The action did what it was to do. -/
def WorkbenchAnswer.isDone : WorkbenchAnswer → Bool
  | .done => true
  | _ => false

/-- What can happen on a workbench. -/
inductive Incident where
  | act (a : WorkbenchAction)
  /-- The process stops, and no more than the first bytes of the head are on the disk. -/
  | crash (length : Nat)
  /-- The process stops when the head has been renamed, and there is no other yet. -/
  | halt

/-- The disk on which the head has been renamed, but not replaced yet. -/
def Group.halfRotated? (g : Group) (d : Disk) : Option Disk :=
  match g.head, d.rename (Group.headRoute g.config) (Group.tailRoute g.config g.maxIndex) with
  | some _, .ok d => some d
  | _, _ => none

namespace Workbench

/-- What the process leaves behind when it stops. -/
def stopped (w : Workbench) (d : Disk) : Workbench :=
  { w with disk := d, group := none, watched := false, readers := [] }

/-- The disk with a file cut. -/
def cutFile (d : Disk) (r : Route) (length : Nat) : Disk :=
  match d.fileAt r with
  | .ok id => d.setContent id ((d.content id).take length)
  | .error _ => d

/-- The log that is on the workbench. -/
def log? (w : Workbench) : Option Log := w.group.map fun g => ⟨w.disk, g, registry⟩

/-- The workbench after an incident; the log is in the directory `dir`. -/
def next (dir : String) (w : Workbench) : Incident → Workbench
  | .act a => (w.run a).2
  | .crash length => w.stopped (cutFile w.disk (.ofText dir ++ [headName]) length)
  | .halt => w.stopped ((w.group.bind fun g => g.halfRotated? w.disk).getD w.disk)

/-- The workbench after a run. -/
def after (dir : String) (w : Workbench) (es : List Incident) : Workbench :=
  es.foldl (next dir) w

/-- Whether an incident seals the head. -/
def seals (w : Workbench) : Incident → Bool
  | .act .rotate => w.group.any fun g => (g.rotate w.disk).isOk
  | .act .checkLimits =>
    w.group.any fun g => g.config.headSizeLimit ≤ g.headSize && (g.rotate w.disk).isOk
  | .halt => w.group.any fun g => (g.halfRotated? w.disk).isSome
  | _ => false

/-- How often the head is sealed in a run. -/
def rotations (dir : String) (w : Workbench) : List Incident → Nat
  | [] => 0
  | e :: es => (w.seals e).toNat + (w.next dir e).rotations dir es

/-- The message that an incident writes, if that is done. -/
def writes (w : Workbench) : Incident → List Input
  | .act (.write m) => if (w.run (.write m)).1.isDone then [m] else []
  | _ => []

/-- The messages of which the writing was done in a run, in order. -/
def written (dir : String) (w : Workbench) : List Incident → List Input
  | [] => []
  | e :: es => w.writes e ++ (w.next dir e).written dir es

/-- How many of the oldest segments an incident takes away. -/
def trimmed (w : Workbench) : Incident → Nat
  | .act .checkLimits =>
    match w.group, (w.run .checkLimits).2.group with
    | some g, some g' => g'.minIndex - g.minIndex
    | _, _ => 0
  | _ => 0

end Workbench

/-- The chapters after an incident. -/
def Chapters.next (w : Workbench) (c : Chapters) : Incident → Chapters
  | .act (.write m) => if (w.run (.write m)).1.isDone then c.write m else c
  | .crash length => c.cut length
  | e => (if w.seals e then c.sealHead else c).drop (w.trimmed e)

/-- The chapters after a run. -/
def Chapters.after (dir : String) (w : Workbench) (c : Chapters) : List Incident → Chapters
  | [] => c
  | e :: es => (c.next w e).after dir (w.next dir e) es

/-- All configurations have the same limit for the length of an envelope. -/
def Uniform (ok : LogConfig → Prop) (max : Nat) : Prop :=
  ∀ config, ok config → config.maxRecordSize = max

/-- The action leaves it to the log to change its files, and opens it only with some
    configurations. -/
def WorkbenchAction.Operates (ok : LogConfig → Prop) : WorkbenchAction → Prop
  | openLog config _ => ok config
  | clear | awaitSegments _ | writeFile _ _ | appendFile _ _ | truncateFile _ _
  | flipBits _ _ _ | removeFile _ | makeDirectory _ | removeDirectory _ => False
  | _ => True

/-- The incident is an action of that kind, or one after which the head can be repaired. -/
def Incident.Operates (ok : LogConfig → Prop) : Incident → Prop
  | act a => a.Operates ok
  | crash _ => ∃ max, Uniform ok max
  | halt => True

/-! ## Actions -/

theorem LogConfig.maxRecordSize_lt {config : LogConfig} (h : config.validate = .ok ()) :
    config.maxRecordSize < 2 ^ 32 := by
  rw [validate] at h
  split at h
  · cases h
  split at h
  · cases h
  split at h
  · cases h
  · next hmax =>
    have hsize : UInt32.size = 2 ^ 32 := rfl
    omega

namespace Workbench

variable {dir : String} {w : Workbench} {m : Input}

attribute [local simp] run withLog

theorem next_act (dir : String) (w : Workbench) (a : WorkbenchAction) :
    w.next dir (.act a) = (w.run a).2 :=
  rfl

/-- Each incident seals the head at most once. -/
theorem rotations_le_length (dir : String) (w : Workbench) (es : List Incident) :
    w.rotations dir es ≤ es.length := by
  induction es generalizing w with
  | nil => exact Nat.le_refl 0
  | cons e es ih =>
    have := Bool.toNat_le (w.seals e)
    have := ih (w.next dir e)
    simp only [rotations, List.length_cons]
    omega

theorem rotations_append (dir : String) (w : Workbench) (es es' : List Incident) :
    w.rotations dir (es ++ es') = w.rotations dir es + (w.after dir es).rotations dir es' := by
  induction es generalizing w with
  | nil => exact (Nat.zero_add _).symm
  | cons e es ih =>
    rw [List.cons_append, rotations, rotations, ih, Nat.add_assoc]
    rfl

/-- The answer to writing, if the log is open and readers accept the message. -/
theorem run_write_of_fits {g : Group} {id : FileId} (hg : w.group = some g)
    (hid : g.head = some id) (hm : m.envelope.length ≤ g.config.maxRecordSize) :
    w.run (.write m) = (.done,
      { w with
        disk := w.disk.append id (Record.encode m.envelope)
        group := some { g with headSize := g.headSize + (Record.encode m.envelope).length } }) := by
  have hencode : registry.encode m = .ok m.envelope := Registry.encode_inputs m
  simp only [run, withLog, hg, Log.write, Log.envelope, hencode, Nat.not_lt.2 hm, if_false,
    Group.write, hid, change, putLog]

/-- Otherwise nothing is written. -/
theorem run_write_of_not_fits (h : ∀ g, w.group = some g → g.isClosed = false →
    ¬m.envelope.length ≤ g.config.maxRecordSize) :
    (w.run (.write m)).1.isDone = false ∧ (w.run (.write m)).2 = w := by
  have hencode : registry.encode m = .ok m.envelope := Registry.encode_inputs m
  cases hg : w.group with
  | none => simp [hg, WorkbenchAnswer.isDone]
  | some g =>
    simp only [run, withLog, hg, Log.write, Log.envelope, hencode]
    cases hid : g.head with
    | none =>
      -- a message that is too long is refused before it is seen that the log is closed
      by_cases hm : g.config.maxRecordSize < m.envelope.length <;>
        simp [hm, Group.write, hid, change, WorkbenchAnswer.isDone]
    | some id =>
      have hm := Nat.not_le.1 (h g hg (by simp [Group.isClosed, hid]))
      simp [if_pos hm, change, WorkbenchAnswer.isDone]

/-- A log fails to write in one of two ways, and stays as it was. -/
theorem run_write_failed {e : LogError} (h : (w.run (.write m)).1 = .failed e) :
    (w.run (.write m)).2 = w ∧ ∃ g, w.group = some g ∧
      (e = .closed ∨ e = .recordTooLarge m.envelope.length g.config.maxRecordSize) := by
  have hencode : registry.encode m = .ok m.envelope := Registry.encode_inputs m
  cases hg : w.group with
  | none => simp [hg] at h
  | some g =>
    simp only [run, withLog, hg, Log.write, Log.envelope, hencode] at h ⊢
    by_cases hm : g.config.maxRecordSize < m.envelope.length
    · simp only [if_pos hm, change] at h ⊢
      cases h
      exact ⟨trivial, g, rfl, .inr rfl⟩
    · cases hid : g.head with
      | none =>
        simp only [if_neg hm, Group.write, hid, change] at h ⊢
        cases h
        exact ⟨trivial, g, rfl, .inl rfl⟩
      | some id => simp [if_neg hm, Group.write, hid, change] at h

theorem run_rotate {g : Group} (hg : w.group = some g) : w.run .rotate =
    match g.rotate w.disk with
    | .ok (g', d') => (.done, { w with disk := d', group := some g' })
    | .error e => (.failed e, w) := by
  simp only [run, withLog, hg, Log.rotate]
  cases g.rotate w.disk <;> rfl

theorem run_checkLimits {g : Group} (hg : w.group = some g) :
    (w.run .checkLimits).2 =
      { w with
        disk := (g.checkLimits w.disk).2.2
        group := some (g.checkLimits w.disk).2.1 } := by
  simp only [run, withLog, hg, Log.checkLimits]
  obtain ⟨result, g', d'⟩ := g.checkLimits w.disk
  cases result <;> rfl

/-- Without a log that is open, there is nothing to seal. -/
theorem run_rotate_of_closed (h : ∀ g, w.group = some g → g.isClosed = true) :
    (w.run .rotate).2 = w ∧ w.seals (.act .rotate) = false := by
  cases hg : w.group with
  | none => simp [seals, hg]
  | some g =>
    have hnone : g.head = none := by simpa [Group.isClosed] using h g hg
    have hrotate : g.rotate w.disk = .error .closed := by simp [Group.rotate, hnone]
    refine ⟨?_, ?_⟩
    · rw [run_rotate hg, hrotate]
    · simp [seals, hg, hrotate, Except.isOk, Except.toBool]

/-- Nor is there anything to delete. -/
theorem run_checkLimits_of_closed (h : ∀ g, w.group = some g → g.isClosed = true) :
    (w.run .checkLimits).2 = w ∧ w.seals (.act .checkLimits) = false ∧
      w.trimmed (.act .checkLimits) = 0 := by
  cases hg : w.group with
  | none => simp [seals, trimmed, hg]
  | some g =>
    have hnone : g.head = none := by simpa [Group.isClosed] using h g hg
    have hrotate : g.rotate w.disk = .error .closed := by simp [Group.rotate, hnone]
    have hcheck : g.checkLimits w.disk = (.ok (), g, w.disk) := if_pos (h g hg)
    have hrun : (w.run .checkLimits).2 = w := by rw [run_checkLimits hg, hcheck, ← hg]
    refine ⟨hrun, ?_, ?_⟩
    · simp [seals, hg, hrotate, Except.isOk, Except.toBool]
    · simp only [trimmed, hrun, hg, Nat.sub_self]

theorem disk_dropLog (w : Workbench) : w.dropLog.disk = w.disk := by
  rw [dropLog]
  split <;> rfl

theorem group_dropLog (w : Workbench) : w.dropLog.group = none := by
  rw [dropLog]
  split
  · assumption
  · rfl

theorem run_openLog_of_error {config : LogConfig} {e : LogConfigError}
    (hconfig : config.validate = .error e) (watched : Bool) :
    (w.run (.openLog config watched)).2.disk = w.disk ∧
      (w.run (.openLog config watched)).2.group = none := by
  simp only [run, Log.openIn, hconfig, disk_dropLog, group_dropLog, and_self]

/-- With a valid configuration, opening a log comes down to opening its segments. -/
theorem run_openLog {config : LogConfig} (hconfig : config.validate = .ok ()) (watched : Bool) :
    (w.run (.openLog config watched)).2.disk = (Group.openIn config w.disk).2 ∧
      (w.run (.openLog config watched)).2.group = (Group.openIn config w.disk).1.toOption := by
  simp only [run, Log.openIn, hconfig, disk_dropLog]
  obtain ⟨result, d'⟩ := Group.openIn config w.disk
  cases result with
  | error e => exact ⟨rfl, w.group_dropLog⟩
  | ok g => exact ⟨rfl, rfl⟩

theorem isDone_run_openLog (w : Workbench) (config : LogConfig) (watched : Bool) :
    (w.run (.openLog config watched)).1.isDone =
      (w.run (.openLog config watched)).2.group.isSome := by
  have hgroup := w.group_dropLog
  simp only [run, Log.openIn]
  cases config.validate with
  | error e => rw [hgroup]; rfl
  | ok u =>
    obtain ⟨result, d'⟩ := Group.openIn config w.dropLog.disk
    cases result with
    | error e => simp only [hgroup]; rfl
    | ok g => rfl

theorem run_drop (w : Workbench) : (w.run .drop).2.disk = w.disk ∧
    ((w.run .drop).2.group = w.group ∨ (w.run .drop).2.group = none) :=
  ⟨w.disk_dropLog, .inr w.group_dropLog⟩

theorem withLog_same (w : Workbench) {f : Log → WorkbenchAnswer × Workbench}
    (hf : ∀ log, (f log).2.disk = w.disk ∧ (f log).2.group = w.group) :
    (w.withLog f).2.disk = w.disk ∧
      ((w.withLog f).2.group = w.group ∨ (w.withLog f).2.group = none) := by
  rw [withLog]
  split
  · exact (hf _).imp_right .inl
  · exact ⟨rfl, .inl rfl⟩

theorem withReader_same (w : Workbench) (id : String)
    (f : Log → Reader → List (Except LogError (Option Input)) × Reader) :
    (w.withReader id f).2.disk = w.disk ∧
      ((w.withReader id f).2.group = w.group ∨ (w.withReader id f).2.group = none) := by
  rw [withReader]
  split
  · exact ⟨rfl, .inl rfl⟩
  split
  · exact ⟨rfl, .inl rfl⟩
  · exact ⟨rfl, .inl rfl⟩

/-- The action looks at the log, or leaves it as it is. -/
structure Looks (w : Workbench) (a : WorkbenchAction) : Prop where
  disk : (w.run a).2.disk = w.disk
  group : (w.run a).2.group = w.group ∨ (w.run a).2.group = none
  chapters : ∀ c : Chapters, c.next w (.act a) = c

/-- The actions that operate a log, and those that only look at it. -/
theorem operates_cases {ok : LogConfig → Prop} {a : WorkbenchAction} (w : Workbench)
    (ha : a.Operates ok) :
    (∃ config watched, a = .openLog config watched) ∨ (∃ m, a = .write m) ∨ a = .rotate ∨
      a = .checkLimits ∨ a = .close ∨ w.Looks a := by
  have hlooks : ∀ {a : WorkbenchAction}, (w.run a).2.disk = w.disk ∧
      ((w.run a).2.group = w.group ∨ (w.run a).2.group = none) →
      (∀ c : Chapters, c.next w (.act a) = c) →
      (∃ config watched, a = .openLog config watched) ∨ (∃ m, a = .write m) ∨ a = .rotate ∨
        a = .checkLimits ∨ a = .close ∨ w.Looks a :=
    fun hrun hc => .inr (.inr (.inr (.inr (.inr ⟨hrun.1, hrun.2, hc⟩))))
  cases a with
  | openLog config watched => exact .inl ⟨config, watched, rfl⟩
  | write m => exact .inr (.inl ⟨m, rfl⟩)
  | rotate => exact .inr (.inr (.inl rfl))
  | checkLimits => exact .inr (.inr (.inr (.inl rfl)))
  | close => exact .inr (.inr (.inr (.inr (.inl rfl))))
  | drop => exact hlooks w.run_drop fun _ => rfl
  | flush => exact hlooks (w.withLog_same fun _ => ⟨rfl, rfl⟩) fun _ => rfl
  | segmentPath index => exact hlooks (w.withLog_same fun _ => ⟨rfl, rfl⟩) fun _ => rfl
  | describe => exact hlooks (w.withLog_same fun _ => ⟨rfl, rfl⟩) fun _ => rfl
  | newReader id =>
    refine hlooks (w.withLog_same fun log => ?_) fun _ => rfl
    cases log.newReader <;> exact ⟨rfl, rfl⟩
  | searchLatest id =>
    refine hlooks (w.withLog_same fun log => ?_) fun _ => rfl
    rcases log.searchLatestEndHeight with e | _ | r <;> exact ⟨rfl, rfl⟩
  | search id height =>
    refine hlooks (w.withLog_same fun log => ?_) fun _ => rfl
    rcases log.searchEndHeight height with e | _ | r <;> exact ⟨rfl, rfl⟩
  | read id => exact hlooks (w.withReader_same id _) fun _ => rfl
  | readAll id limit => exact hlooks (w.withReader_same id _) fun _ => rfl
  | describeReader id =>
    refine hlooks ?_ fun _ => rfl
    simp only [run]
    split <;> exact ⟨rfl, .inl rfl⟩
  | closeReader id =>
    refine hlooks ?_ fun _ => rfl
    simp only [run]
    split <;> exact ⟨rfl, .inl rfl⟩
  | fileBytes name =>
    refine hlooks ?_ fun _ => rfl
    simp only [run]
    split <;> exact ⟨rfl, .inl rfl⟩
  | _ => exact ha.elim

/-- Closing a log leaves the disk as it is. -/
theorem disk_run_close (w : Workbench) : (w.run .close).2.disk = w.disk := by
  rw [run, withLog]
  split <;> rfl

end Workbench

end ConsensusCore
