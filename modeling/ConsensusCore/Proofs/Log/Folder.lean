import ConsensusCore.Proofs.Log.Clearing
import ConsensusCore.Proofs.Log.Repair

/-!
# Logs among other files

A log can be opened in a directory that holds any files, under any names (`Disk.Folder`). Some of
the names may be those of tails, which the log then takes for its own, and some may only be read
as such. What the log does is confined to the names that it writes itself (`Group.Own`): all
others stay, and so do the files under them (`Group.Confined`).

* `Group.tends_openIn`: a log can be opened whatever files there are;
* `Workbench.Tended.runAll`: what is written, sealed, trimmed and closed is confined in this way.
-/

namespace ConsensusCore

open LogConfig Segment

/-! ## Directories of files -/

namespace Disk

variable {d d' : Disk} {r : Route} {p q : Path} {name : String} {n : Node} {id id' : FileId}

theorem find?_set_of_ne (hq : p ≠ q) : (d.set q n).find? p = d.find? p := by
  by_cases hroot : p = []
  · rw [hroot, find?_root, find?_root]
  · rw [find?_set hroot, if_neg hq]

theorem content_setContent_of_ne (hid : id' ≠ id) (bs : Bytes) :
    (d.setContent id bs).content id' = d.content id' := by
  rw [content, content, setContent, List.getElem?_set_ne hid.symm]

/-- A directory in which each name is that of a file, and is listed once. -/
structure Folder (d : Disk) (r : Route) (p : Path) : Prop where
  resolve : d.resolve r = .ok (p, .directory)
  file : ∀ name n, d.find? (p ++ [name]) = some n → ∃ id < d.contents.length, n = .file id
  tidy : d.Tidy p

theorem folder_of_entries (hresolve : d.resolve r = .ok (p, .directory))
    (hfiles : ∀ e ∈ d.entries, ∀ name, nameIn p e = some name →
      ∃ id < d.contents.length, e.2 = .file id)
    (htidy : d.Tidy p) : d.Folder r p := by
  refine ⟨hresolve, fun name n hn => ?_, htidy⟩
  rw [find?_of_ne_root (by simp)] at hn
  obtain ⟨before, after, hentries, -⟩ := List.lookup_eq_some_iff.1 hn
  exact hfiles (p ++ [name], n) (hentries ▸ List.mem_append_right _ List.mem_cons_self) name
    (nameIn_eq_some.2 rfl)

namespace Folder

variable (h : d.Folder r p)
include h

theorem locate : d.locate r = .ok p := (resolve_eq_ok_iff.1 h.resolve).1

theorem isDir : d.find? p = some .directory := (resolve_eq_ok_iff.1 h.resolve).2

theorem ne_directory (name : String) : d.find? (p ++ [name]) ≠ some .directory := by
  intro hdir
  obtain ⟨id, -, hid⟩ := h.file name _ hdir
  cases hid

/-- Where the route to an entry leads. -/
theorem locate_entry (hentry : Route.IsEntry name) :
    d.locate (r ++ [name]) = .ok q ↔ r.Admits name ∧ q = p ++ [name] :=
  Disk.locate_entry h.locate h.isDir hentry

theorem steady (hs : d.Steady d')
    (hfile : ∀ name n, d'.find? (p ++ [name]) = some n → ∃ id < d'.contents.length, n = .file id) :
    d'.Folder r p :=
  ⟨resolve_eq_ok_iff.2 ⟨locate_mono hs.dirs h.locate, hs.dirs _ h.isDir⟩, hfile, hs.tidy _ h.tidy⟩

theorem erase (name : String) : (d.erase (p ++ [name])).Folder r p := by
  refine h.steady (steady_erase (h.ne_directory name)) fun name' n hn => ?_
  rw [find?_erase (by simp)] at hn
  split at hn
  next => cases hn
  next => exact h.file name' n hn

end Folder

end Disk

/-! ## What a log changes -/

namespace Group

/-- The names under which a log puts its segments. -/
inductive Own (config : LogConfig) : String → Prop
  | head : Own config headName
  | tail {i : Nat} : i ≤ Saturating.ceiling → (dir config).Admits (tailName i) →
    Own config (tailName i)

/-- All that is different between two disks has to do with the segments of a log: what is under
    its own names, and the content of files that its head has had. -/
structure Confined (config : LogConfig) (p : Path) (d d' : Disk) : Prop where
  folder : d'.Folder (dir config) p
  grows : d.contents.length ≤ d'.contents.length
  others : ∀ q, (∀ name, Own config name → q ≠ p ++ [name]) → d'.find? q = d.find? q
  contents : ∀ f < d.contents.length, d.find? (p ++ [headName]) ≠ some (.file f) →
    d'.content f = d.content f

/-- A group that is in charge of the directory, and has changed the disk from `d` to `d'`. -/
structure Tends (g : Group) (config : LogConfig) (p : Path) (d d' : Disk) : Prop where
  confined : Confined config p d d'
  settings : g.config = config
  admits : (dir config).Admits headName
  max : g.maxIndex ≤ Saturating.ceiling
  head : ∀ id, g.head = some id → d'.find? (p ++ [headName]) = some (.file id) ∧
    (d.find? (p ++ [headName]) = some (.file id) ∨ d.contents.length ≤ id)

variable {config : LogConfig} {p q : Path} {d d' d'' : Disk} {g g' : Group} {name : String}
  {id : FileId}

theorem Confined.refl (h : d.Folder (dir config) p) : Confined config p d d :=
  ⟨h, Nat.le_refl _, fun _ _ => rfl, fun _ _ _ => rfl⟩

/-- What is done to one of the names, if it does not lead to a directory. -/
theorem Confined.change (h : Confined config p d d') (hown : Own config name)
    (hs : d'.Steady d'') (hgrows : d'.contents.length ≤ d''.contents.length)
    (hothers : ∀ q, q ≠ p ++ [name] → d''.find? q = d'.find? q)
    (hfile : ∀ n, d''.find? (p ++ [name]) = some n → ∃ id < d''.contents.length, n = .file id)
    (hcontents : ∀ f, d''.content f = d'.content f) : Confined config p d d'' where
  folder := by
    refine h.folder.steady hs fun name' n hn => ?_
    by_cases heq : name' = name
    · exact hfile n (heq ▸ hn)
    · rw [hothers _ (by simpa using heq)] at hn
      obtain ⟨id, hid, rfl⟩ := h.folder.file name' n hn
      exact ⟨id, Nat.lt_of_lt_of_le hid hgrows, rfl⟩
  grows := Nat.le_trans h.grows hgrows
  others q hq := (hothers q (hq name hown)).trans (h.others q hq)
  contents f hf hne := (hcontents f).trans (h.contents f hf hne)

theorem Confined.erase (h : Confined config p d d') (hown : Own config name) :
    Confined config p d (d'.erase (p ++ [name])) := by
  refine h.change hown (Disk.steady_erase (h.folder.ne_directory name)) (Nat.le_refl _)
    (fun q hq => Disk.find?_erase_of_ne hq) (fun n hn => ?_) fun _ => rfl
  rw [Disk.find?_erase (by simp), if_pos rfl] at hn
  cases hn

theorem Confined.set (h : Confined config p d d') (hown : Own config name)
    (hid : id < d'.contents.length) : Confined config p d (d'.set (p ++ [name]) (.file id)) := by
  refine h.change hown (Disk.steady_set (h.folder.ne_directory name)) (Nat.le_refl _)
    (fun q hq => Disk.find?_set_of_ne hq) (fun n hn => ?_) fun _ => rfl
  rw [Disk.find?_set (by simp), if_pos rfl, Option.some.injEq] at hn
  exact ⟨id, hid, hn.symm⟩

theorem Confined.create (h : Confined config p d d') (hown : Own config name) :
    Confined config p d (d'.create (p ++ [name])) := by
  refine h.change hown (Disk.steady_create (h.folder.ne_directory name)) (by simp)
    (fun q hq => Disk.find?_set_of_ne hq) (fun n hn => ?_) (d'.content_create _)
  rw [Disk.find?_create (by simp), if_pos rfl, Option.some.injEq] at hn
  exact ⟨d'.contents.length, by simp, hn.symm⟩

/-- Files that are not and were not the head keep what is in them. -/
theorem Confined.setContent (h : Confined config p d d')
    (hid : d.find? (p ++ [headName]) = some (.file id) ∨ d.contents.length ≤ id) (bs : Bytes) :
    Confined config p d (d'.setContent id bs) where
  folder := by
    refine h.folder.steady (d'.steady_setContent id bs) fun name n hn => ?_
    rw [Disk.length_contents_setContent]
    exact h.folder.file name n hn
  grows := by
    rw [Disk.length_contents_setContent]
    exact h.grows
  others := h.others
  contents f hf hne := by
    have hother : f ≠ id := by
      rintro rfl
      exact hid.elim hne (Nat.not_le.2 hf)
    rw [Disk.content_setContent_of_ne hother]
    exact h.contents f hf hne

/-- What a use of the log makes of the group and the disk. -/
inductive Use (g : Group) (d : Disk) : Group → Disk → Prop
  | keep : Use g d g d
  | write {id : FileId} (n : Nat) (bs : Bytes) : g.head = some id →
    Use g d { g with headSize := n } (d.append id bs)
  | rotate {g' : Group} {d' : Disk} : g.rotate d = .ok (g', d') → Use g d g' d'
  | checkLimits : Use g d (g.checkLimits d).2.1 (g.checkLimits d).2.2
  | close : Use g d g.close d

/-! ## Operations -/

theorem max_numbers_le (indices : List Nat) : (numbers indices).2 ≤ Saturating.ceiling := by
  simp only [numbers]
  split
  next => exact Nat.min_le_right _ _
  next => exact Nat.zero_le _

/-- Opening a group where there is no head. -/
theorem openIn_of_headless (h : d.Folder (dir config) p)
    (hlocate : d.locate (headRoute config) = .ok (p ++ [headName]))
    (hnone : d.find? (p ++ [headName]) = none) : openIn config d =
      (.ok ⟨config, some d.contents.length, 0, (numbers ((d.names p).filterMap index?)).1,
        (numbers ((d.names p).filterMap index?)).2⟩, d.create (p ++ [headName])) := by
  have hlist := Disk.list_of_directory h.resolve
  have hexists : d.exists? (headRoute config) = false := by
    rw [Disk.exists?, Disk.resolve, hlocate]
    simp only [bind, Except.bind, hnone]
  have hempty : ((d.create (p ++ [headName])).content d.contents.length).length = 0 := by
    rw [Disk.content_create, Disk.content_length_contents]
    rfl
  rw [openIn, Disk.createDirs_of_directory h.resolve]
  cases hmax : ((d.names p).filterMap index?).max? <;>
    simp only [ofDir, tailIndices, hlist, hexists, Except.map, bind, Except.bind,
      Bool.false_eq_true, if_false, pure, Except.pure, Disk.openFile_of_none hlocate hnone, hempty,
      numbers, hmax]

/-- A group goes on from the tails that are listed, with a head that has been repaired or created. -/
theorem openIn_eq_ok (h : d.Folder (dir config) p) (hopen : openIn config d = (.ok g, d')) :
    (dir config).Admits headName ∧ ∃ id, g = ⟨config, some id, (d'.content id).length,
        (numbers ((d.names p).filterMap index?)).1, (numbers ((d.names p).filterMap index?)).2⟩ ∧
      (d.find? (p ++ [headName]) = some (.file id) ∧ d' = mended config d id ∨
        d.find? (p ++ [headName]) = none ∧ id = d.contents.length ∧
          d' = d.create (p ++ [headName])) := by
  have hlist := Disk.list_of_directory h.resolve
  have hindices : tailIndices config d = .ok ((d.names p).filterMap index?) := by
    rw [tailIndices, hlist]
    rfl
  by_cases hadm : (dir config).Admits headName
  · have hlocate := (h.locate_entry isEntry_headName).2 ⟨hadm, rfl⟩
    refine ⟨hadm, ?_⟩
    cases hfind : d.find? (p ++ [headName]) with
    | some n =>
      obtain ⟨id, hid, rfl⟩ := h.file headName n hfind
      have hfile : d.fileAt (headRoute config) = .ok id :=
        Disk.fileAt_of_file (Disk.resolve_eq_ok_iff.2 ⟨hlocate, hfind⟩)
      obtain ⟨indices, htails, heq⟩ := openIn_of_fileAt hfile
      cases hindices.symm.trans htails
      rw [heq] at hopen
      cases hopen
      exact ⟨id, rfl, .inl ⟨rfl, rfl⟩⟩
    | none =>
      have hempty : (d.create (p ++ [headName])).content d.contents.length = [] := by
        rw [Disk.content_create, Disk.content_length_contents]
      rw [openIn_of_headless h hlocate hfind] at hopen
      cases hopen
      exact ⟨d.contents.length, by rw [hempty]; rfl, .inr ⟨rfl, rfl, rfl⟩⟩
  · -- a head that cannot be asked for is neither found nor created
    have hlocate : ∃ e, d.locate (headRoute config) = .error e := by
      cases hlocate : d.locate (headRoute config) with
      | error e => exact ⟨e, rfl⟩
      | ok q => exact absurd ((h.locate_entry isEntry_headName).1 hlocate).1 hadm
    obtain ⟨e, hlocate⟩ := hlocate
    have hexists : d.exists? (headRoute config) = false := by
      rw [Disk.exists?, Disk.resolve, hlocate]
      rfl
    rw [openIn, Disk.createDirs_of_directory h.resolve] at hopen
    simp only [ofDir, tailIndices, hlist, hexists, Except.map, bind, Except.bind,
      Bool.false_eq_true, if_false, pure, Except.pure, Disk.openFile, hlocate, Prod.mk.injEq,
      reduceCtorEq, false_and] at hopen

/-- A group that has just been opened is in charge of its directory. -/
theorem tends_openIn (h : d.Folder (dir config) p) (hopen : openIn config d = (.ok g, d')) :
    g.Tends config p d d' := by
  obtain ⟨hadm, id, rfl, ⟨hfind, rfl⟩ | ⟨-, rfl, rfl⟩⟩ := openIn_eq_ok h hopen
  · refine ⟨(Confined.refl h).setContent (.inl hfind) _, rfl, hadm, max_numbers_le _, ?_⟩
    rintro _ ⟨⟩
    exact ⟨hfind, .inl hfind⟩
  · refine ⟨(Confined.refl h).create .head, rfl, hadm, max_numbers_le _, ?_⟩
    rintro _ ⟨⟩
    exact ⟨by rw [Disk.find?_create (by simp), if_pos rfl], .inr (Nat.le_refl _)⟩

/-- When the limits are checked, the head may be sealed first, and tails may be trimmed then. -/
theorem checkLimits_cases (g : Group) (d : Disk) : ∃ g₁ d₁,
    (g₁ = g ∧ d₁ = d ∨ g.rotate d = .ok (g₁, d₁)) ∧
    ((g.checkLimits d).2 = (g₁, d₁) ∨ ∃ total,
      (g.checkLimits d).2 = (Group.trim (g₁.maxIndex - g₁.minIndex) total g₁ d₁).2) := by
  rw [checkLimits]
  split
  next => exact ⟨g, d, .inl ⟨rfl, rfl⟩, .inl rfl⟩
  next =>
    dsimp only
    split
    next => exact ⟨g, d, .inl ⟨rfl, rfl⟩, .inl rfl⟩
    next g₁ d₁ hsealed =>
      refine ⟨g₁, d₁, ?_, ?_⟩
      · split at hsealed
        next => exact .inr hsealed
        next =>
          cases hsealed
          exact .inl ⟨rfl, rfl⟩
      · split
        next => exact .inl rfl
        next => exact .inr ⟨_, rfl⟩

namespace Tends

variable (h : g.Tends config p d d')
include h

/-- Where the routes to the tails lead. -/
theorem locate_tailRoute (i : Nat) : d'.locate (tailRoute g.config i) = .ok q ↔
    (dir config).Admits (tailName i) ∧ q = p ++ [tailName i] := by
  rw [tailRoute, h.settings]
  exact h.confined.folder.locate_entry (isEntry_tailName i)

theorem resolve_headRoute (hhead : g.head = some id) :
    d'.resolve (headRoute g.config) = .ok (p ++ [headName], .file id) := by
  rw [headRoute, h.settings]
  exact Disk.resolve_eq_ok_iff.2
    ⟨(h.confined.folder.locate_entry isEntry_headName).2 ⟨h.admits, rfl⟩, (h.head id hhead).1⟩

/-- First the head gets the name of a tail, then there is a new one. -/
theorem rotate_of_admits (hhead : g.head = some id)
    (hadm : (dir config).Admits (tailName g.maxIndex)) : g.rotate d' =
      .ok (⟨config, some d'.contents.length, 0, g.minIndex, Saturating.add g.maxIndex 1⟩,
        ((d'.erase (p ++ [headName])).set (p ++ [tailName g.maxIndex]) (.file id)).create
          (p ++ [headName])) := by
  have hlocate := (h.locate_tailRoute g.maxIndex).2 ⟨hadm, rfl⟩
  have hne : p ++ [headName] ≠ p ++ [tailName g.maxIndex] := by
    simpa using (tailName_ne_headName g.maxIndex).symm
  obtain ⟨_, hlt, ⟨⟩⟩ := h.confined.folder.file headName _ (h.head id hhead).1
  have hsealed := (h.confined.erase .head).set (.tail h.max hadm) hlt
  have hnone : ((d'.erase (p ++ [headName])).set (p ++ [tailName g.maxIndex])
      (.file id)).find? (p ++ [headName]) = none := by
    rw [Disk.find?_set_of_ne hne, Disk.find?_erase (by simp), if_pos rfl]
  have hplace := (hsealed.folder.locate_entry isEntry_headName).2 ⟨h.admits, rfl⟩
  simp only [Group.rotate, hhead, Disk.rename_file (h.resolve_headRoute hhead) hlocate
    (h.confined.folder.ne_directory _)]
  simp only [headRoute, h.settings, Disk.openFile_of_none hplace hnone]
  rfl

theorem rotate_eq_ok (hrotate : g.rotate d' = .ok (g', d'')) : ∃ id, g.head = some id ∧
    (dir config).Admits (tailName g.maxIndex) ∧
    g' = ⟨config, some d'.contents.length, 0, g.minIndex, Saturating.add g.maxIndex 1⟩ ∧
    d'' = ((d'.erase (p ++ [headName])).set (p ++ [tailName g.maxIndex]) (.file id)).create
      (p ++ [headName]) := by
  have hrotate' := hrotate
  rw [Group.rotate] at hrotate
  cases hhead : g.head with
  | none => simp only [hhead, reduceCtorEq] at hrotate
  | some id =>
    cases hlocate : d'.locate (tailRoute g.config g.maxIndex) with
    | error e =>
      simp only [hhead, Disk.rename, h.resolve_headRoute hhead, hlocate, bind, Except.bind,
        reduceCtorEq] at hrotate
    | ok q =>
      have hadm := ((h.locate_tailRoute _).1 hlocate).1
      rw [h.rotate_of_admits hhead hadm] at hrotate'
      cases hrotate'
      exact ⟨id, rfl, hadm, rfl, rfl⟩

theorem rotate (hrotate : g.rotate d' = .ok (g', d'')) : g'.Tends config p d d'' := by
  obtain ⟨id, hhead, hadm, rfl, rfl⟩ := h.rotate_eq_ok hrotate
  obtain ⟨_, hlt, ⟨⟩⟩ := h.confined.folder.file headName _ (h.head id hhead).1
  refine ⟨((h.confined.erase .head).set (.tail h.max hadm) hlt).create .head, rfl, h.admits,
    Nat.min_le_right _ _, ?_⟩
  rintro _ ⟨⟩
  refine ⟨?_, .inr h.confined.grows⟩
  rw [Disk.find?_create (by simp), if_pos rfl]
  rfl

/-- Only tails are trimmed, by the names that the log gives to tails. -/
theorem trim {count : Nat} (hcount : count ≤ g.maxIndex - g.minIndex) (total : Nat) :
    (Group.trim count total g d').2.1.Tends config p d (Group.trim count total g d').2.2 := by
  induction count generalizing total g d' with
  | zero => exact h
  | succ count ih =>
    have hnext : ∀ d'', Confined config p d d'' →
        (∀ q, q ≠ p ++ [tailName g.minIndex] → d''.find? q = d'.find? q) →
        { g with minIndex := g.minIndex + 1 }.Tends config p d d'' := by
      intro d'' hconfined hothers
      refine ⟨hconfined, h.settings, h.admits, h.max, fun id hid => ?_⟩
      rw [hothers _ (by simpa using (tailName_ne_headName g.minIndex).symm)]
      exact h.head id hid
    have hless : count ≤ g.maxIndex - (g.minIndex + 1) := by omega
    rw [Group.trim]
    split
    next => exact h
    next =>
      dsimp only
      split
      next d₁ hremove =>
        rw [Disk.remove] at hremove
        split at hremove
        next q f hresolve =>
          cases hremove
          obtain ⟨hadm, rfl⟩ := (h.locate_tailRoute _).1 (Disk.resolve_eq_ok_iff.1 hresolve).1
          have hmax := h.max
          exact ih (hnext _ (h.confined.erase (.tail (by omega) hadm))
            fun q hq => Disk.find?_erase_of_ne hq) hless _
        next => cases hremove
        next => cases hremove
      next => exact ih (hnext _ h.confined fun _ _ => rfl) hless _
      next => exact h

theorem checkLimits : (g.checkLimits d').2.1.Tends config p d (g.checkLimits d').2.2 := by
  obtain ⟨g₁, d₁, hsealed, hrest⟩ := g.checkLimits_cases d'
  have h₁ : g₁.Tends config p d d₁ := by
    obtain ⟨rfl, rfl⟩ | hrotate := hsealed
    · exact h
    · exact h.rotate hrotate
  obtain heq | ⟨total, heq⟩ := hrest <;> rw [heq]
  · exact h₁
  · exact h₁.trim (Nat.le_refl _) total

theorem write (hhead : g.head = some id) (n : Nat) (bs : Bytes) :
    { g with headSize := n }.Tends config p d (d'.append id bs) :=
  ⟨h.confined.setContent (h.head id hhead).2 _, h.settings, h.admits, h.max, h.head⟩

theorem close : g.close.Tends config p d d' :=
  ⟨h.confined, h.settings, h.admits, h.max, fun _ hid => absurd hid (by simp [Group.close])⟩

theorem use (huse : g.Use d' g' d'') : g'.Tends config p d d'' := by
  cases huse with
  | keep => exact h
  | write n bs hhead => exact h.write hhead n bs
  | rotate hrotate => exact h.rotate hrotate
  | checkLimits => exact h.checkLimits
  | close => exact h.close

end Tends

end Group

/-! ## Runs -/

/-- The action writes to the log, seals its head, looks at its sizes or closes it. -/
def WorkbenchAction.isUse : WorkbenchAction → Bool
  | write _ | flush | rotate | checkLimits | close => true
  | _ => false

namespace Workbench

/-- The workbench after some actions. -/
def runAll (w : Workbench) (actions : List WorkbenchAction) : Workbench :=
  actions.foldl (fun w a => (w.run a).2) w

/-- There is a log, which is in charge of its directory. -/
def Tended (w : Workbench) (config : LogConfig) (p : Path) (d : Disk) : Prop :=
  ∃ g, w.group = some g ∧ g.Tends config p d w.disk

variable {w : Workbench} {config : LogConfig} {p : Path} {d : Disk} {a : WorkbenchAction}

theorem openIn_of_isDone {watched : Bool}
    (hopen : (w.run (.openLog config watched)).1.isDone = true) :
    ∃ g, Group.openIn config w.disk = (.ok g, (w.run (.openLog config watched)).2.disk) ∧
      (w.run (.openLog config watched)).2.group = some g := by
  rw [isDone_run_openLog] at hopen
  cases hvalid : config.validate with
  | error e =>
    rw [(run_openLog_of_error hvalid watched).2] at hopen
    cases hopen
  | ok u =>
    obtain ⟨hdisk, hgroup⟩ := w.run_openLog hvalid watched
    rcases hresult : Group.openIn config w.disk with ⟨_ | g, d'⟩ <;> rw [hresult] at hdisk hgroup
    · rw [hgroup] at hopen
      cases hopen
    · exact ⟨g, by rw [hdisk], hgroup⟩

theorem tended_openLog {watched : Bool} (h : w.disk.Folder (Group.dir config) p)
    (hopen : (w.run (.openLog config watched)).1.isDone = true) :
    (w.run (.openLog config watched)).2.Tended config p w.disk := by
  obtain ⟨g, hresult, hgroup⟩ := openIn_of_isDone hopen
  exact ⟨g, hgroup, Group.tends_openIn h hresult⟩

/-- What a use of the log comes to. -/
theorem run_use {g : Group} (hg : w.group = some g) (ha : a.isUse = true) :
    ∃ g', (w.run a).2.group = some g' ∧ g.Use w.disk g' (w.run a).2.disk := by
  cases a with
  | write m =>
    by_cases hfits : g.isClosed = false ∧ m.envelope.length ≤ g.config.maxRecordSize
    · obtain ⟨hopen, hm⟩ := hfits
      obtain ⟨id, hid⟩ := Option.isSome_iff_exists.1 (by simpa [Group.isClosed] using hopen)
      rw [run_write_of_fits hg hid hm]
      exact ⟨_, rfl, .write _ _ hid⟩
    · rw [(run_write_of_not_fits fun g' hg' hopen hm => ?_).2]
      · exact ⟨g, hg, .keep⟩
      · cases hg.symm.trans hg'
        exact hfits ⟨hopen, hm⟩
  | rotate =>
    rw [run_rotate hg]
    cases hrotate : g.rotate w.disk with
    | error e => exact ⟨g, hg, .keep⟩
    | ok gd => exact ⟨gd.1, rfl, .rotate hrotate⟩
  | checkLimits =>
    rw [run_checkLimits hg]
    exact ⟨_, rfl, .checkLimits⟩
  | close =>
    have hrun : (w.run .close).2 = { w with group := some g.close } := by
      simp only [Workbench.run, withLog, hg, putLog, Log.close]
    rw [hrun]
    exact ⟨_, rfl, .close⟩
  | flush =>
    have hrun : (w.run .flush).2 = w := by simp only [Workbench.run, withLog, hg]
    rw [hrun]
    exact ⟨g, hg, .keep⟩
  | _ => cases ha

/-- What a run of uses keeps. -/
theorem Tended.runAll (h : w.Tended config p d) {actions : List WorkbenchAction}
    (hactions : ∀ a ∈ actions, a.isUse = true) : (w.runAll actions).Tended config p d := by
  induction actions generalizing w with
  | nil => exact h
  | cons a actions ih =>
    obtain ⟨ha, hrest⟩ := List.forall_mem_cons.1 hactions
    obtain ⟨g, hg, htends⟩ := h
    obtain ⟨g', hg', huse⟩ := run_use hg ha
    exact ih ⟨g', hg', htends.use huse⟩ hrest

end Workbench

end ConsensusCore
