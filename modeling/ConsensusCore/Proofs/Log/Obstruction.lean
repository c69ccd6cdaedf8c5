import ConsensusCore.Proofs.Log.Incident
import ConsensusCore.Proofs.Log.Repair

/-!
# A directory in the way

The head is sealed by giving it the name of a tail. If a directory has that name
(`Group.Obstructed`), this fails before anything has been done, and so does looking at the
sizes when the head is due. Only names are in the way: what is written to the head goes to a
file, whatever name that has. So messages can be written on, and each attempt to seal the head
fails (`Workbench.after_obstructed`). Once there is no directory in the way any more, the head
is sealed with all that it has got (`Group.rotate_of_free`).

* `Workbench.attempts_unseen`: a run with such attempts comes to the same as one without them.
-/

namespace ConsensusCore

open LogConfig Segment

/-! ## Disks -/

namespace Disk

variable {d : Disk} {p : Path} {r : Route} {id : FileId}

theorem isDirectory_iff : d.isDirectory r = true ↔ ∃ p, d.resolve r = .ok (p, .directory) := by
  rw [isDirectory]
  split
  next p hp => exact iff_of_true rfl ⟨p, hp⟩
  next hne =>
    refine iff_of_false Bool.false_ne_true ?_
    rintro ⟨p, hp⟩
    exact hne p hp

theorem keepsDirs_create (hnone : d.find? p = none) : d.KeepsDirs (d.create p) :=
  keepsDirs_set (by simp [hnone])

/-- A new file leaves the others where they are. -/
theorem fileAt_create (hnone : d.find? p = none) (h : d.fileAt r = .ok id) :
    (d.create p).fileAt r = .ok id := by
  obtain ⟨q, hq⟩ := exists_of_fileAt h
  obtain ⟨hlocate, hfind⟩ := resolve_eq_ok_iff.1 hq
  refine fileAt_of_file (resolve_eq_ok_iff.2 ⟨locate_mono (keepsDirs_create hnone) hlocate, ?_⟩)
  have hroot : q ≠ [] := by
    rintro rfl
    cases hfind
  rw [find?_create hroot, if_neg, hfind]
  rintro rfl
  cases hnone.symm.trans hfind

end Disk

/-! ## Groups -/

namespace Group

variable {g : Group} {d : Disk} {id : FileId}

/-- The name of the head leads to a file, and a directory has the name that it gets next. -/
structure Obstructed (g : Group) (d : Disk) : Prop where
  head : ∃ id, d.fileAt (headRoute g.config) = .ok id
  tail : d.isDirectory (tailRoute g.config g.maxIndex) = true

/-- The directory of the log is where the head is. -/
theorem locate_tailRoute (hfile : d.fileAt (headRoute g.config) = .ok id) (i : Nat) :
    ∃ p, d.resolve (headRoute g.config) = .ok (p ++ [headName], .file id) ∧
      ∀ q, d.locate (tailRoute g.config i) = .ok q ↔
        (dir g.config).Admits (tailName i) ∧ q = p ++ [tailName i] := by
  obtain ⟨p, hp⟩ := Disk.resolve_of_fileAt hfile
  obtain ⟨hlocate, hfind⟩ := Disk.resolve_eq_ok_iff.1 hp
  obtain ⟨q, hq⟩ := Disk.exists_of_fileAt hfile
  have hhead := (Disk.locate_entry hlocate hfind isEntry_headName).1 (Disk.resolve_eq_ok_iff.1 hq).1
  exact ⟨p, hhead.2 ▸ hq, fun q => Disk.locate_entry hlocate hfind (isEntry_tailName i)⟩

namespace Obstructed

variable (h : g.Obstructed d)
include h

theorem admits : (dir g.config).Admits (tailName g.maxIndex) := by
  obtain ⟨id, hid⟩ := h.head
  obtain ⟨p, -, hlocate⟩ := locate_tailRoute hid g.maxIndex
  obtain ⟨q, hq⟩ := Disk.isDirectory_iff.1 h.tail
  exact ((hlocate q).1 (Disk.resolve_eq_ok_iff.1 hq).1).1

/-- A file cannot get the name of a directory. -/
theorem rename :
    d.rename (headRoute g.config) (tailRoute g.config g.maxIndex) = .error .isDirectory := by
  obtain ⟨id, hid⟩ := h.head
  obtain ⟨p, hp⟩ := Disk.exists_of_fileAt hid
  obtain ⟨q, hq⟩ := Disk.isDirectory_iff.1 h.tail
  obtain ⟨hlocate, hfind⟩ := Disk.resolve_eq_ok_iff.1 hq
  rw [Disk.rename]
  simp only [hp, hlocate, hfind, bind, Except.bind]

theorem rotate (hhead : g.head = some id) : g.rotate d = .error (.disk .isDirectory) := by
  rw [Group.rotate]
  simp only [hhead, h.rename]

/-- The sizes are not looked at any further, so that no tail is deleted. -/
theorem checkLimits (hhead : g.head = some id) (hdue : g.config.headSizeLimit ≤ g.headSize) :
    g.checkLimits d = (.error (.disk .isDirectory), g, d) := by
  refine checkLimits_of_error (by simp [isClosed, hhead]) ?_
  rw [sealIfDue, if_pos hdue, h.rotate hhead]

/-- What is written is not in the way, nor does it remove what is. -/
theorem write (n : Nat) (bs : Bytes) :
    { g with headSize := n }.Obstructed (d.append id bs) :=
  ⟨h.head, h.tail⟩

end Obstructed

section Free

variable (hfile : d.fileAt (headRoute g.config) = .ok id)
  (hadm : (dir g.config).Admits (tailName g.maxIndex))
  (hfree : d.isDirectory (tailRoute g.config g.maxIndex) = false)
include hfile hadm hfree

/-- Without a directory in the way, the file of the head gets the name of a tail. -/
theorem rename_of_free : ∃ d' p,
    d.rename (headRoute g.config) (tailRoute g.config g.maxIndex) = .ok d' ∧
      d'.contents = d.contents ∧ d'.fileAt (tailRoute g.config g.maxIndex) = .ok id ∧
      d'.locate (headRoute g.config) = .ok (p ++ [headName]) ∧
      d'.find? (p ++ [headName]) = none := by
  obtain ⟨p, hp, htail⟩ := locate_tailRoute hfile g.maxIndex
  obtain ⟨hlocate, hfind⟩ := Disk.resolve_eq_ok_iff.1 hp
  have hq := (htail _).2 ⟨hadm, rfl⟩
  have hne : p ++ [headName] ≠ p ++ [tailName g.maxIndex] := by
    simpa using (tailName_ne_headName g.maxIndex).symm
  have hnotDir : d.find? (p ++ [tailName g.maxIndex]) ≠ some .directory := by
    intro hdir
    rw [Disk.isDirectory_iff.2 ⟨_, Disk.resolve_eq_ok_iff.2 ⟨hq, hdir⟩⟩] at hfree
    cases hfree
  have hkeep : d.KeepsDirs
      ((d.erase (p ++ [headName])).set (p ++ [tailName g.maxIndex]) (.file id)) := by
    refine (Disk.keepsDirs_erase (by simp [hfind])).trans (Disk.keepsDirs_set ?_)
    rwa [Disk.find?_erase_of_ne hne.symm]
  refine ⟨_, p, Disk.rename_file hp hq hnotDir, rfl, ?_, Disk.locate_mono hkeep hlocate, ?_⟩
  · refine Disk.fileAt_of_file (Disk.resolve_eq_ok_iff.2 ⟨Disk.locate_mono hkeep hq, ?_⟩)
    rw [Disk.find?_set (by simp), if_pos rfl]
  · rw [Disk.find?_set (by simp), if_neg hne, Disk.find?_erase (by simp), if_pos rfl]

/-- So the head is sealed, and there is a new one. -/
theorem rotate_of_free {open? : FileId} (hhead : g.head = some open?) : ∃ new d',
    g.rotate d = .ok (⟨g.config, some new, 0, g.minIndex, Saturating.add g.maxIndex 1⟩, d') ∧
      d'.fileAt (tailRoute g.config g.maxIndex) = .ok id ∧
      d'.fileAt (headRoute g.config) = .ok new ∧ d'.content new = [] ∧
      ∀ f, d'.content f = d.content f := by
  obtain ⟨d₁, p, hrename, hcontents, htail, hlocate, hnone⟩ := rename_of_free hfile hadm hfree
  have hcontent : ∀ f, (d₁.create (p ++ [headName])).content f = d.content f := by
    intro f
    rw [Disk.content_create, Disk.content, hcontents]
    rfl
  refine ⟨d₁.contents.length, d₁.create (p ++ [headName]), ?_, Disk.fileAt_create hnone htail, ?_,
    ?_, hcontent⟩
  · rw [rotate]
    simp only [hhead, hrename, Disk.openFile_of_none hlocate hnone]
  · refine Disk.fileAt_of_file (Disk.resolve_eq_ok_iff.2
      ⟨Disk.locate_mono (Disk.keepsDirs_create hnone) hlocate, ?_⟩)
    rw [Disk.find?_create (by simp), if_pos rfl]
  · rw [hcontent, hcontents, Disk.content_length_contents]

end Free

end Group

/-! ## Workbenches -/

/-- The action is to write a message. -/
def WorkbenchAction.isWrite : WorkbenchAction → Bool
  | .write _ => true
  | _ => false

namespace Workbench

/-- The action writes a message, or tries to seal the head. -/
def WritesOrSeals (w : Workbench) : WorkbenchAction → Prop
  | .write _ | .rotate => True
  | .checkLimits => ∃ g, w.group = some g ∧ g.config.headSizeLimit ≤ g.headSize
  | _ => False

/-- So do all actions, one after the other. -/
def OnlyWritesOrSeals : Workbench → List WorkbenchAction → Prop
  | _, [] => True
  | w, a :: actions => w.WritesOrSeals a ∧ (w.run a).2.OnlyWritesOrSeals actions

/-- The workbench with other names for the same files. -/
def withNames (w : Workbench) (names : List (Path × Node)) : Workbench :=
  { w with disk := { w.disk with entries := names } }

/-- The workbench with some more messages in the head. -/
def wrote (w : Workbench) (g : Group) (id : FileId) (ms : List Input) : Workbench :=
  { w with
    disk := w.disk.append id (frames ms)
    group := some { g with headSize := g.headSize + (frames ms).length } }

variable {w : Workbench} {g : Group} {id : FileId} {actions : List WorkbenchAction}

theorem wrote_nil (hgroup : w.group = some g) (id : FileId) : w.wrote g id [] = w := by
  have hsame : w.wrote g id [] = { w with group := some g } := by
    rw [wrote, frames_nil, Disk.append_nil]
    rfl
  rw [hsame, ← hgroup]

theorem wrote_wrote (w : Workbench) (g : Group) (id : FileId) (ms ms' : List Input) :
    (w.wrote g id ms).wrote { g with headSize := g.headSize + (frames ms).length } id ms' =
      w.wrote g id (ms ++ ms') := by
  simp only [wrote, Disk.append_append, frames_append, List.length_append, Nat.add_assoc]

section Open

variable (hgroup : w.group = some g) (hhead : g.head = some id)
include hgroup hhead

/-- Writing does not depend on names. -/
theorem run_write (m : Input) : ∃ ms, w.writes (.act (.write m)) = ms ∧
    (w.run (.write m)).2 = w.wrote g id ms ∧
    ∀ names, ((w.withNames names).run (.write m)).2 = (w.withNames names).wrote g id ms := by
  by_cases hm : m.envelope.length ≤ g.config.maxRecordSize
  · have hrun := run_write_of_fits hgroup hhead hm
    refine ⟨[m], by simp only [writes, hrun, WorkbenchAnswer.isDone, if_true], ?_, fun names => ?_⟩
    · rw [hrun, wrote, frames_singleton]
    · have hgroup' : (w.withNames names).group = some g := hgroup
      rw [run_write_of_fits hgroup' hhead hm, wrote, frames_singleton]
  · have hnot : ∀ w' : Workbench, w'.group = some g →
        (w'.run (.write m)).1.isDone = false ∧ (w'.run (.write m)).2 = w' := by
      intro w' hgroup'
      refine run_write_of_not_fits fun g' hg' _ => ?_
      cases hgroup'.symm.trans hg'
      exact hm
    refine ⟨[], by simp only [writes, (hnot w hgroup).1, Bool.false_eq_true, if_false], ?_,
      fun names => ?_⟩
    · rw [(hnot w hgroup).2, wrote_nil hgroup]
    · have hgroup' : (w.withNames names).group = some g := hgroup
      rw [(hnot _ hgroup').2, wrote_nil hgroup']

/-- Without a directory in the way, the head is sealed. -/
theorem run_rotate_of_free {f : FileId}
    (hfile : w.disk.fileAt (Group.headRoute g.config) = .ok f)
    (hadm : (Group.dir g.config).Admits (tailName g.maxIndex))
    (hfree : w.disk.isDirectory (Group.tailRoute g.config g.maxIndex) = false) :
    ∃ w' new, w.run .rotate = (.done, w') ∧
      w'.group = some ⟨g.config, some new, 0, g.minIndex, Saturating.add g.maxIndex 1⟩ ∧
      w'.disk.fileAt (Group.tailRoute g.config g.maxIndex) = .ok f ∧
      w'.disk.fileAt (Group.headRoute g.config) = .ok new ∧ w'.disk.content new = [] ∧
      ∀ f, w'.disk.content f = w.disk.content f := by
  obtain ⟨new, d', hrotate, htail, hnew, hempty, hcontents⟩ :=
    Group.rotate_of_free hfile hadm hfree hhead
  refine ⟨{ w with
    disk := d'
    group := some ⟨g.config, some new, 0, g.minIndex, Saturating.add g.maxIndex 1⟩ }, new, ?_, rfl,
    htail, hnew, hempty, hcontents⟩
  rw [run_rotate hgroup, hrotate]

variable (hobstructed : g.Obstructed w.disk)
include hobstructed

/-- An attempt to seal the head fails, and changes nothing. -/
theorem run_of_obstructed {a : WorkbenchAction} (ha : w.WritesOrSeals a)
    (hwrite : a.isWrite = false) : w.run a = (.failed (.disk .isDirectory), w) := by
  cases a with
  | write m => cases hwrite
  | rotate => rw [run_rotate hgroup, hobstructed.rotate hhead]
  | checkLimits =>
    obtain ⟨g', hgroup', hdue⟩ := ha
    cases hgroup.symm.trans hgroup'
    simp only [run, withLog, hgroup, Log.checkLimits, hobstructed.checkLimits hhead hdue,
      Log.withGroup, finish, putLog]
    rw [← hgroup]
  | _ => exact ha.elim

/-- Of a run with such attempts, only the messages are left that were written in it, as of one
    without them. -/
theorem after_obstructed (dir : String) (hactions : w.OnlyWritesOrSeals actions) :
    w.after dir (actions.map .act) = w.wrote g id (w.written dir (actions.map .act)) ∧
    ∀ names, (w.withNames names).after dir ((actions.filter WorkbenchAction.isWrite).map .act) =
      (w.withNames names).wrote g id (w.written dir (actions.map .act)) := by
  induction actions generalizing w g with
  | nil =>
    have hgroup' : ∀ names, (w.withNames names).group = some g := fun _ => hgroup
    exact ⟨(wrote_nil hgroup id).symm, fun names => (wrote_nil (hgroup' names) id).symm⟩
  | cons a actions ih =>
    obtain ⟨ha, hactions⟩ := hactions
    cases hwrite : a.isWrite with
    | false =>
      have hrun := run_of_obstructed hgroup hhead hobstructed ha hwrite
      have hnone : w.writes (.act a) = [] := by
        cases a with
        | write m => cases hwrite
        | _ => rfl
      rw [List.filter_cons_of_neg (by simp [hwrite])]
      simp only [List.map_cons, after, List.foldl_cons, written, next_act, hnone, hrun,
        List.nil_append] at hactions ⊢
      exact ih hgroup hhead hobstructed hactions
    | true =>
      obtain ⟨m, rfl⟩ : ∃ m, a = .write m := by
        cases a with
        | write m => exact ⟨m, rfl⟩
        | _ => cases hwrite
      obtain ⟨ms, hwrites, hrun, hnames⟩ := run_write hgroup hhead m
      rw [List.filter_cons_of_pos hwrite]
      simp only [List.map_cons, after, List.foldl_cons, written, next_act, hwrites, hrun,
        hnames] at hactions ⊢
      have hgroup' : (w.wrote g id ms).group =
          some { g with headSize := g.headSize + (frames ms).length } := rfl
      obtain ⟨hafter, hfiltered⟩ := ih hgroup' hhead (hobstructed.write _ _) hactions
      refine ⟨?_, fun names => ?_⟩
      · rw [← wrote_wrote]
        exact hafter
      · rw [← wrote_wrote]
        exact hfiltered names

end Open

/-- While a directory has the name that the head of an open log gets next, an attempt to seal
    the head fails, be it with `rotate`, or with `checkLimits` once the head is due, and changes
    nothing. After any messages have been written, and any such attempts made, the messages are
    in the head, nothing else has changed, and attempts fail as before. If then the head still
    has its name, and no directory is in the way any more, the head is sealed: the tail has got
    all that was in the head before and the messages, in order, and there is a new head. All of
    the workbench, and so what is read from the log, is as after a run without those attempts,
    and without the directory. -/
theorem attempts_unseen (hgroup : w.group = some g) (hhead : g.head = some id)
    (hobstructed : g.Obstructed w.disk) :
    w.run .rotate = (.failed (.disk .isDirectory), w) ∧
    (g.config.headSizeLimit ≤ g.headSize →
      w.run .checkLimits = (.failed (.disk .isDirectory), w)) ∧
    ∀ dir actions, w.OnlyWritesOrSeals actions →
      let w' := w.after dir (actions.map .act)
      let ms := w.written dir (actions.map .act)
      let writes := (actions.filter WorkbenchAction.isWrite).map Incident.act
      w'.group = some { g with headSize := g.headSize + (frames ms).length } ∧
      w'.disk = w.disk.append id (frames ms) ∧
      w'.run .rotate = (.failed (.disk .isDirectory), w') ∧
      ∀ names,
        w'.withNames names = (w.withNames names).after dir writes ∧
        (id < w.disk.contents.length →
          (w'.withNames names).disk.fileAt (Group.headRoute g.config) = .ok id →
          (w'.withNames names).disk.isDirectory (Group.tailRoute g.config g.maxIndex) = false →
          ∃ w'' new, (w'.withNames names).run .rotate = (.done, w'') ∧
            w'' = (w.withNames names).after dir (writes ++ [.act .rotate]) ∧
            w''.group =
              some ⟨g.config, some new, 0, g.minIndex, Saturating.add g.maxIndex 1⟩ ∧
            w''.disk.fileAt (Group.tailRoute g.config g.maxIndex) = .ok id ∧
            w''.disk.content id = w.disk.content id ++ frames ms ∧
            w''.disk.fileAt (Group.headRoute g.config) = .ok new ∧ w''.disk.content new = [] ∧
            ∀ f, f ≠ id → w''.disk.content f = w.disk.content f) := by
  refine ⟨run_of_obstructed (a := .rotate) hgroup hhead hobstructed trivial rfl, fun hdue =>
    run_of_obstructed (a := .checkLimits) hgroup hhead hobstructed ⟨g, hgroup, hdue⟩ rfl,
    fun dir actions hactions => ?_⟩
  obtain ⟨hafter, hfiltered⟩ := after_obstructed hgroup hhead hobstructed dir hactions
  dsimp only
  rw [hafter]
  obtain ⟨ms, hms⟩ : ∃ ms, ms = w.written dir (actions.map .act) := ⟨_, rfl⟩
  rw [← hms] at hfiltered ⊢
  have hgroup' : (w.wrote g id ms).group =
      some { g with headSize := g.headSize + (frames ms).length } := rfl
  refine ⟨rfl, rfl, run_of_obstructed (a := .rotate) hgroup' hhead (hobstructed.write _ _) trivial
    rfl, fun names => ⟨(hfiltered names).symm, fun hlt hfile hfree => ?_⟩⟩
  -- the attempt that succeeds at last
  have hgroup'' : ((w.wrote g id ms).withNames names).group = _ := hgroup'
  obtain ⟨w'', new, hrun, hsealed, htail, hnew, hempty, hcontents⟩ :=
    run_rotate_of_free hgroup'' hhead hfile hobstructed.admits hfree
  have hcontent : ∀ f, w''.disk.content f = w.disk.content f ++ if f = id then frames ms else [] :=
    fun f => (hcontents f).trans (Disk.content_append hlt _)
  refine ⟨w'', new, hrun, ?_, hsealed, htail, ?_, hnew, hempty, fun f hf => ?_⟩
  · have hfirst := hfiltered names
    rw [after] at hfirst
    rw [after, List.foldl_append, hfirst, List.foldl_cons, List.foldl_nil, next_act]
    exact (congrArg Prod.snd hrun).symm
  · rw [hcontent, if_pos rfl]
  · rw [hcontent, if_neg hf, List.append_nil]

/-- An open log with a message in its head, and with a directory in the way. -/
def blocked : Workbench where
  root := "root"
  disk := ⟨[(["root", "WAL.000"], .directory), (["root"], .directory), (["root", "WAL"], .file 0)],
    [frames [.endHeight ⟨5⟩]]⟩
  group := some ⟨{ LogConfig.dev "root" with headSizeLimit := 20 }, some 0, 25, 0, 0⟩
  watched := false
  readers := []

theorem obstructed_blocked :
    Group.Obstructed ⟨{ LogConfig.dev "root" with headSizeLimit := 20 }, some 0, 25, 0, 0⟩
      blocked.disk :=
  ⟨⟨0, by decide +kernel⟩, by decide +kernel⟩

/-- A message is written between two attempts. -/
def attempts : List WorkbenchAction := [.rotate, .write (.endHeight ⟨6⟩), .checkLimits]

theorem written_attempts : blocked.written "root" (attempts.map .act) = [.endHeight ⟨6⟩] := by
  decide +kernel

theorem group_attempts :
    ((blocked.run .rotate).2.run (.write (.endHeight ⟨6⟩))).2.group =
      some ⟨{ LogConfig.dev "root" with headSizeLimit := 20 }, some 0, 50, 0, 0⟩ := by
  decide +kernel

/-- When the directory is removed, the head is sealed with both messages. -/
theorem attempts_unseen_blocked :
    let w := (blocked.after "root" (attempts.map .act)).withNames
      [(["root"], .directory), (["root", "WAL"], .file 0)]
    ∃ w', w.run .rotate = (.done, w') ∧
      w'.disk.fileAt (Group.tailRoute (LogConfig.dev "root") 0) = .ok 0 ∧
      w'.disk.content 0 = frames [.endHeight ⟨5⟩] ++ frames [.endHeight ⟨6⟩] := by
  have hactions : blocked.OnlyWritesOrSeals attempts :=
    ⟨trivial, trivial, ⟨_, group_attempts, by decide⟩, trivial⟩
  obtain ⟨-, -, hunseen⟩ := attempts_unseen rfl rfl obstructed_blocked
  obtain ⟨-, hdisk, -, hnames⟩ := hunseen "root" attempts hactions
  obtain ⟨w', new, hrun, -, -, htail, hcontent, -⟩ :=
    (hnames [(["root"], .directory), (["root", "WAL"], .file 0)]).2 (by decide)
      (by decide +kernel) (by decide +kernel)
  rw [written_attempts] at hcontent
  exact ⟨w', hrun, htail, hcontent⟩

end Workbench

end ConsensusCore
