import ConsensusCore.Proofs.Log.Run

/-!
# Clearing a log

A log can be cleared, which closes it and deletes its head and all of its tails. For that the
names in its directory are listed, and each one is deleted. This succeeds as no name is there
twice (`Disk.Tidy`), and it leaves an empty shelf.

* `Group.removeFiles_of_on`: what is on a shelf can be deleted;
* `Kept.next_use`, `Kept.of_use`: the directory of a log has some chapters on a shelf, whatever
  happens to the log, also if it is cleared.
-/

namespace ConsensusCore

open LogConfig Segment

/-! ## Names in a directory -/

namespace Disk

variable {d d' : Disk} {p q : Path} {r r' : Route} {id : FileId} {n : Node}

/-- Nothing is listed twice in the directory at a place. -/
def Tidy (d : Disk) (p : Path) : Prop := (d.names p).Nodup

/-- All directories of one disk are directories of the other, and tidy if they were before. -/
structure Steady (d d' : Disk) : Prop where
  dirs : d.KeepsDirs d'
  tidy : ∀ p, d.Tidy p → d'.Tidy p

theorem Steady.refl (d : Disk) : d.Steady d := ⟨fun _ hp => hp, fun _ hp => hp⟩

theorem Steady.trans {d'' : Disk} (h : d.Steady d') (h' : d'.Steady d'') : d.Steady d'' :=
  ⟨h.dirs.trans h'.dirs, fun p hp => h'.tidy p (h.tidy p hp)⟩

theorem steady_setContent (d : Disk) (id : FileId) (bs : Bytes) : d.Steady (d.setContent id bs) :=
  ⟨d.keepsDirs_setContent id bs, fun _ hp => hp⟩

theorem steady_erase (hq : d.find? q ≠ some .directory) : d.Steady (d.erase q) :=
  ⟨keepsDirs_erase hq, fun _ hp => hp.sublist (List.filter_sublist.filterMap _)⟩

/-- A name that is set takes the place of any other entry with it. -/
theorem steady_set (hq : d.find? q ≠ some .directory) : d.Steady (d.set q n) := by
  refine ⟨keepsDirs_set hq, fun p hp => ?_⟩
  have herase := (steady_erase hq).tidy p hp
  rw [Tidy, names, set]
  rcases hname : nameIn p (q, n) with _ | name
  · rw [List.filterMap_cons_none hname]
    exact herase
  · rw [List.filterMap_cons_some hname, List.nodup_cons]
    refine ⟨fun hmem => ?_, herase⟩
    obtain ⟨e, he, hname'⟩ := List.mem_filterMap.1 hmem
    have heq : e.1 = q := (nameIn_eq_some.1 hname').trans (nameIn_eq_some.1 hname).symm
    simpa [heq] using (List.mem_filter.1 he).2

theorem steady_create (hq : d.find? q ≠ some .directory) : d.Steady (d.create q) :=
  ⟨(steady_set hq).dirs, (steady_set hq).tidy⟩

theorem steady_remove (h : d.remove r = .ok d') : d.Steady d' := by
  rw [remove] at h
  split at h
  next hr =>
    cases h
    exact steady_erase (by rw [(resolve_eq_ok_iff.1 hr).2]; simp)
  next => cases h
  next => cases h

theorem steady_openFile (h : d.openFile r = .ok (d', id)) : d.Steady d' := by
  rw [openFile] at h
  rcases hl : d.locate r with e | p <;> rw [hl] at h
  · cases h
  · simp only [bind, Except.bind] at h
    split at h
    next =>
      cases h
      exact .refl d
    next => cases h
    next hp =>
      cases h
      exact steady_create (by rw [hp]; simp)

theorem steady_rename (hr : d.resolve r = .ok (p, .file id)) (h : d.rename r r' = .ok d') :
    d.Steady d' := by
  have hp : d.find? p ≠ some .directory := by
    rw [(resolve_eq_ok_iff.1 hr).2]
    simp
  rcases hl : d.locate r' with e | q
  · rw [rename, hr, hl] at h
    cases h
  by_cases hq : d.find? q = some .directory
  · rw [rename, hr, hl] at h
    simp only [bind, Except.bind, hq, reduceCtorEq] at h
  · rw [rename_file hr hl hq] at h
    cases h
    refine (steady_erase hp).trans (steady_set ?_)
    by_cases hroot : q = []
    · exact absurd (hroot ▸ d.find?_root) hq
    · rw [find?_erase hroot]
      split
      next => simp
      next => exact hq

end Disk

/-! ## Steps of a group -/

namespace Group

variable {g g' : Group} {s : Shelf} {id : FileId} {d d' : Disk} {config : LogConfig} {p : Path}

theorem steady_trim (count total : Nat) (g : Group) (d : Disk) :
    d.Steady (Group.trim count total g d).2.2 := by
  induction count generalizing total g d with
  | zero => exact .refl d
  | succ count ih =>
    rw [Group.trim]
    split
    next => exact .refl d
    next =>
      dsimp only
      split
      next hremove => exact (Disk.steady_remove hremove).trans (ih ..)
      next => exact ih ..
      next => exact .refl d

theorem OpenOn.steady_rotate (h : g.OpenOn s id d) (hrotate : g.rotate d = .ok (g', d')) :
    d.Steady d' := by
  simp only [rotate, h.head] at hrotate
  rcases hrename : d.rename (Group.headRoute g.config) (Group.tailRoute g.config g.maxIndex) with
    e | d₁ <;> simp only [hrename] at hrotate
  · cases hrotate
  · rcases hopen : d₁.openFile (Group.headRoute g.config) with e | ⟨d₂, id₂⟩ <;>
      simp only [hopen] at hrotate <;> cases hrotate
    exact (Disk.steady_rename h.resolve_head hrename).trans (Disk.steady_openFile hopen)

theorem OpenOn.steady_checkLimits (h : g.OpenOn s id d) : d.Steady (g.checkLimits d).2.2 := by
  rw [checkLimits, h.isClosed]
  simp only [Bool.false_eq_true, if_false]
  have hsealed : ∀ g' d', (if g.config.headSizeLimit ≤ g.headSize then g.rotate d
      else .ok (g, d)) = .ok (g', d') → d.Steady d' := by
    intro g' d' hseal
    split at hseal
    next => exact h.steady_rotate hseal
    next =>
      cases hseal
      exact .refl d
  split
  next => exact .refl d
  next hseal =>
    split
    next => exact hsealed _ _ hseal
    next => exact (hsealed _ _ hseal).trans (steady_trim ..)

/-- Opening repairs the head or creates it, or fails. -/
theorem steady_openIn (h : s.On d) (hdir : dir config = s.dir) (hlast : s.last ≤ Saturating.ceiling) :
    d.Steady (openIn config d).2 := by
  rcases hhead : s.head with _ | id
  · by_cases hadm : s.dir.Admits headName
    · obtain ⟨g, hopen, -⟩ := openIn_of_none h hdir hlast hhead hadm
      rw [hopen]
      exact Disk.steady_create (h.find?_ne_directory _)
    · obtain ⟨e, hopen⟩ := openIn_error h hdir hlast hhead hadm
      rw [hopen]
      exact .refl d
  · obtain ⟨g, hopen, -⟩ := openIn_of_head h hdir hlast hhead rfl
    rw [hopen]
    exact d.steady_setContent id _

/-! ## Deleting everything -/

/-- Names that are read as those of tails have different numbers, unless one of them is not the
    name that the tail is given. -/
theorem nodup_indices {names : List String} (hnodup : names.Nodup)
    (htails : ∀ name ∈ names, ∀ i, index? name = some i → name = tailName i) :
    (names.filterMap index?).Nodup := by
  rw [List.Nodup, List.pairwise_filterMap]
  refine hnodup.imp_of_mem fun {name name'} hname hname' hne i hi i' hi' heq => hne ?_
  rw [htails name hname i hi, htails name' hname' i' hi', heq]

/-- All tails are deleted that are listed once. -/
theorem removeTails_of_nodup {l : List Nat} (hnodup : l.Nodup)
    (hfiles : ∀ i ∈ l, ∃ f,
      d.resolve (tailRoute config i) = .ok (p ++ [tailName i], .file f)) :
    ∃ d', removeTails config l d = (.ok (), d') ∧ d.Steady d' ∧ d'.contents = d.contents ∧
      (∀ i ∈ l, d'.find? (p ++ [tailName i]) = none) ∧
      ∀ q, (∀ i ∈ l, q ≠ p ++ [tailName i]) → d'.find? q = d.find? q := by
  induction l generalizing d with
  | nil => exact ⟨d, rfl, .refl d, rfl, fun _ hi => absurd hi List.not_mem_nil, fun _ _ => rfl⟩
  | cons i l ih =>
    obtain ⟨hi, hnodup⟩ := List.nodup_cons.1 hnodup
    obtain ⟨f, hfile⟩ := hfiles i List.mem_cons_self
    have hremove := Disk.remove_file hfile
    have hsteady := Disk.steady_remove hremove
    have hne : ∀ j ∈ l, p ++ [tailName j] ≠ p ++ [tailName i] := by
      intro j hj heq
      rw [List.append_cancel_left_eq, List.singleton_inj] at heq
      exact hi (tailName_injective heq ▸ hj)
    obtain ⟨d', hrest, hsteady', hcontents, hgone, hothers⟩ := ih hnodup fun j hj => by
      obtain ⟨f', hfile'⟩ := hfiles j (List.mem_cons_of_mem i hj)
      obtain ⟨hlocate, hfind⟩ := Disk.resolve_eq_ok_iff.1 hfile'
      refine ⟨f', Disk.resolve_eq_ok_iff.2 ⟨Disk.locate_mono hsteady.dirs hlocate, ?_⟩⟩
      rw [Disk.find?_erase_of_ne (hne j hj), hfind]
    refine ⟨d', ?_, hsteady.trans hsteady', hcontents, fun j hj => ?_, fun q hq => ?_⟩
    · simp only [removeTails, hremove, hrest]
    · rcases List.mem_cons.1 hj with rfl | hj
      · rw [hothers _ fun i' hi' => (hne i' hi').symm, Disk.find?_erase (by simp), if_pos rfl]
      · exact hgone j hj
    · rw [hothers q fun j hj => hq j (List.mem_cons_of_mem i hj),
        Disk.find?_erase_of_ne (hq i List.mem_cons_self)]

/-- The head is deleted first, if there is one. -/
theorem remove_head (h : s.On d) (hdir : dir config = s.dir) : ∃ d',
    (if d.exists? (headRoute config) then d.remove (headRoute config) else .ok d) = .ok d' ∧
      d.Steady d' ∧ d'.contents = d.contents ∧ d'.find? (s.place ++ [headName]) = none ∧
      ∀ q, q ≠ s.place ++ [headName] → d'.find? q = d.find? q := by
  rw [exists?_head h hdir]
  rcases hhead : s.head with _ | id
  · refine ⟨d, rfl, .refl d, rfl, h.find?_eq_none fun f hf => ?_, fun _ _ => rfl⟩
    rw [Shelf.names_head_iff, hhead] at hf
    cases hf
  · have hfile := h.resolve (.head hhead)
    rw [← hdir] at hfile
    have hremove := Disk.remove_file hfile
    refine ⟨_, hremove, Disk.steady_remove hremove, rfl, ?_, fun q hq => Disk.find?_erase_of_ne hq⟩
    rw [Disk.find?_erase (by simp), if_pos rfl]

/-- All that is on a shelf is deleted. -/
theorem removeFiles_of_on (h : s.On d) (hdir : dir g.config = s.dir)
    (hlast : s.last ≤ Saturating.ceiling) (htidy : d.Tidy s.place) : ∃ d',
      g.removeFiles d = (.ok (), { g with headSize := 0, minIndex := 0, maxIndex := 0 }, d') ∧
        d.Steady d' ∧ d'.contents = d.contents ∧ ∀ name, d'.find? (s.place ++ [name]) = none := by
  obtain ⟨d₁, hhead, hsteady₁, hcontents₁, hgone₁, hothers₁⟩ := remove_head h hdir
  have hlocate₁ := Disk.locate_mono hsteady₁.dirs h.locate
  have hlist := Disk.list_of_directory
    (Disk.resolve_eq_ok_iff.2 ⟨hlocate₁, hsteady₁.dirs _ h.isDir⟩)
  have hindices : tailIndices g.config d₁ = .ok ((d₁.names s.place).filterMap index?) := by
    rw [tailIndices, hdir, hlist]
    rfl
  -- the names that are left are those of tails, which can be told from their numbers
  have htails : ∀ name ∈ d₁.names s.place, ∃ i f, name = tailName i ∧ index? name = some i ∧
      s.Names name f := by
    intro name hname
    obtain ⟨n, hn⟩ := (Disk.mem_list hlocate₁ hlist).1 hname
    by_cases heq : name = headName
    · rw [heq, hgone₁] at hn
      cases hn
    · rw [hothers₁ _ (by simpa using heq)] at hn
      obtain ⟨f, -, hnames⟩ := (h.find? name n).1 hn
      rcases Shelf.names_iff.1 hnames with ⟨hhead, -⟩ | ⟨k, rfl, hk⟩
      · exact absurd hhead heq
      · have hlt := (List.getElem?_eq_some_iff.1 hk).1
        refine ⟨s.first + k, f, rfl, index?_tailName ?_, hnames⟩
        rw [Shelf.last] at hlast
        omega
  have hnodup : ((d₁.names s.place).filterMap index?).Nodup := by
    refine nodup_indices (hsteady₁.tidy _ htidy) fun name hname i hi => ?_
    obtain ⟨j, _, rfl, hj, -⟩ := htails name hname
    cases hj.symm.trans hi
    rfl
  have hfiles : ∀ i ∈ (d₁.names s.place).filterMap index?, ∃ f,
      d₁.resolve (tailRoute g.config i) = .ok (s.place ++ [tailName i], .file f) := by
    intro i hi
    obtain ⟨name, hname, hindex⟩ := List.mem_filterMap.1 hi
    obtain ⟨j, f, rfl, hj, hnames⟩ := htails name hname
    cases hj.symm.trans hindex
    obtain ⟨hlocate, hfind⟩ := Disk.resolve_eq_ok_iff.1 (h.resolve hnames)
    rw [tailRoute, hdir]
    refine ⟨f, Disk.resolve_eq_ok_iff.2 ⟨Disk.locate_mono hsteady₁.dirs hlocate, ?_⟩⟩
    rw [hothers₁ _ (by simpa using tailName_ne_headName i), hfind]
  obtain ⟨d', hremove, hsteady, hcontents, hgone, hothers⟩ := removeTails_of_nodup hnodup hfiles
  refine ⟨d', ?_, hsteady₁.trans hsteady, hcontents.trans hcontents₁, fun name => ?_⟩
  · simp only [removeFiles, hhead, hindices, hremove]
  · rcases hfind : d₁.find? (s.place ++ [name]) with _ | n
    · rw [hothers, hfind]
      intro i hi heq
      obtain ⟨f, hfile⟩ := hfiles i hi
      rw [heq, (Disk.resolve_eq_ok_iff.1 hfile).2] at hfind
      cases hfind
    · have hname := (Disk.mem_list hlocate₁ hlist).2 ⟨n, hfind⟩
      obtain ⟨i, f, rfl, hi, -⟩ := htails name hname
      exact hgone i (List.mem_filterMap.2 ⟨_, hname, hi⟩)

end Group

/-! ## Runs -/

/-- The log is operated, or cleared. -/
def Incident.Uses (ok : LogConfig → Prop) (e : Incident) : Prop :=
  e.Operates ok ∨ e = .act .clear

namespace Kept

variable {ok : LogConfig → Prop} {dir : String} {w : Workbench} {s : Shelf} {c : Chapters}
  {rest : Bytes}
variable (h : Kept ok dir w s c rest)
include h

theorem steady_act (hok : ∀ config, ok config → config.dir = dir) {a : WorkbenchAction}
    (ha : a.Operates ok) (hlast : s.last ≤ Saturating.ceiling) :
    w.disk.Steady (w.run a).2.disk := by
  -- nothing is done to the files of a log that is not open
  have hclosed : (¬∃ g, w.group = some g ∧ g.isClosed = false) →
      ∀ g, w.group = some g → g.isClosed = true := by
    intro hnot g hg
    simpa using fun hopen => hnot ⟨g, hg, hopen⟩
  rcases w.operates_cases ha with ⟨config, watched, rfl⟩ | ⟨m, rfl⟩ | rfl | rfl | rfl | hlooks
  · rcases hvalid : config.validate with e | ⟨⟩
    · rw [(Workbench.run_openLog_of_error hvalid watched).1]
      exact .refl _
    · rw [(Workbench.run_openLog hvalid watched).1]
      exact Group.steady_openIn h.on (by rw [h.dir, Group.dir, hok config ha]) hlast
  · by_cases hfits : ∃ g, w.group = some g ∧ g.isClosed = false ∧
        m.envelope.length ≤ g.config.maxRecordSize
    · obtain ⟨g, hg, hopen, hm⟩ := hfits
      obtain ⟨-, id, hid⟩ := h.opened g hg hopen
      rw [Workbench.run_write_of_fits hg hid.head hm]
      exact w.disk.steady_setContent id _
    · rw [(Workbench.run_write_of_not_fits (w := w) fun g hg hopen hm =>
        hfits ⟨g, hg, hopen, hm⟩).2]
      exact .refl _
  · by_cases hopen : ∃ g, w.group = some g ∧ g.isClosed = false
    · obtain ⟨g, hg, hopen⟩ := hopen
      obtain ⟨-, id, hid⟩ := h.opened g hg hopen
      rw [Workbench.run_rotate hg]
      rcases hrotate : g.rotate w.disk with e | ⟨g', d'⟩
      · exact .refl _
      · exact hid.steady_rotate hrotate
    · rw [(Workbench.run_rotate_of_closed (hclosed hopen)).1]
      exact .refl _
  · by_cases hopen : ∃ g, w.group = some g ∧ g.isClosed = false
    · obtain ⟨g, hg, hopen⟩ := hopen
      obtain ⟨-, id, hid⟩ := h.opened g hg hopen
      rw [Workbench.run_checkLimits hg]
      exact hid.steady_checkLimits
    · rw [(Workbench.run_checkLimits_of_closed (hclosed hopen)).1]
      exact .refl _
  · rw [w.disk_run_close]
    exact .refl _
  · rw [hlooks.disk]
    exact .refl _

theorem steady_next (hok : ∀ config, ok config → config.dir = dir) {e : Incident}
    (he : e.Operates ok) (hlast : s.last ≤ Saturating.ceiling) :
    w.disk.Steady (w.next dir e).disk := by
  cases e with
  | act a => exact h.steady_act hok he hlast
  | crash n =>
    simp only [Workbench.next, Workbench.stopped, Workbench.cutFile]
    split
    next id _ => exact w.disk.steady_setContent id _
    next => exact .refl _
  | halt =>
    simp only [Workbench.next, Workbench.stopped]
    rcases hhalf : w.group.bind fun g => g.halfRotated? w.disk with _ | d'
    · exact .refl _
    · obtain ⟨g, hg, hd'⟩ := Option.bind_eq_some_iff.1 hhalf
      rw [Group.halfRotated?] at hd'
      split at hd'
      next hhead hrename =>
        cases hd'
        obtain ⟨-, id, hid⟩ := h.opened g hg (by rw [Group.isClosed, hhead]; rfl)
        exact Disk.steady_rename hid.resolve_head hrename
      next => cases hd'

/-- A log that is cleared leaves an empty shelf. -/
theorem clear (hok : ∀ config, ok config → config.dir = dir) (hlast : s.last ≤ Saturating.ceiling)
    (htidy : w.disk.Tidy s.place) :
    ∃ s' c' rest', Kept ok dir (w.run .clear).2 s' c' rest' ∧ s'.last ≤ s.last ∧
      w.disk.Steady (w.run .clear).2.disk := by
  rcases hg : w.group with _ | g
  · have hrun : (w.run .clear).2 = w := by simp only [Workbench.run, Workbench.withLog, hg]
    rw [hrun]
    exact ⟨s, c, rest, h, Nat.le_refl _, .refl _⟩
  · have hdir : Group.dir g.close.config = s.dir := by
      rw [h.dir, Group.dir]
      exact congrArg Route.ofText (hok g.config (h.config g hg).1)
    obtain ⟨d', hremove, hsteady, hcontents, hnone⟩ :=
      Group.removeFiles_of_on h.on hdir hlast htidy
    have hrun : (w.run .clear).2 =
        { w with
          disk := d'
          group := some { g.close with headSize := 0, minIndex := 0, maxIndex := 0 } } := by
      simp only [Workbench.run, Workbench.withLog, hg, Log.clear, Log.close, hremove,
        Log.withGroup, Workbench.finish, Workbench.putLog]
    have hbare : ∀ name f, ¬Shelf.Names ⟨s.dir, s.place, 0, [], none⟩ name f := by
      rintro name f (hn | hn) <;> cases hn
    rw [hrun]
    refine ⟨⟨s.dir, s.place, 0, [], none⟩, .empty, [], ⟨h.dir, ⟨?_, ?_, fun name n => ?_,
      fun name f hn => absurd hn (hbare name f), .nil, fun f hf => absurd hf List.not_mem_nil⟩,
      ⟨rfl, rfl⟩, fun m hm => absurd hm List.not_mem_nil, .inl rfl, fun g' hg' => ?_,
      fun g' hg' hopen => ?_⟩, Nat.zero_le _, hsteady⟩
    · exact Disk.locate_mono hsteady.dirs h.on.locate
    · exact hsteady.dirs _ h.on.isDir
    · rw [hnone]
      refine ⟨fun hn => (by cases hn), ?_⟩
      rintro ⟨f, -, hn⟩
      exact absurd hn (hbare name f)
    · cases hg'
      exact h.config g hg
    · cases hg'
      cases hopen

theorem place_eq {w' : Workbench} {s' : Shelf} {c' : Chapters} {rest' : Bytes}
    (h' : Kept ok dir w' s' c' rest') (hsteady : w.disk.Steady w'.disk) : s'.place = s.place := by
  have hlocate := Disk.locate_mono hsteady.dirs h.on.locate
  rw [h.dir, ← h'.dir, h'.on.locate] at hlocate
  exact Except.ok.inj hlocate

/-- Whatever is done to a log, there are some chapters in its directory, which stays tidy. -/
theorem next_use (hok : ∀ config, ok config → config.dir = dir) {e : Incident} (he : e.Uses ok)
    (hlast : s.last + (w.seals e).toNat ≤ Saturating.ceiling) (htidy : w.disk.Tidy s.place) :
    ∃ s' c' rest', Kept ok dir (w.next dir e) s' c' rest' ∧
      s'.last ≤ s.last + (w.seals e).toNat ∧ (w.next dir e).disk.Tidy s'.place := by
  have hceiling := Nat.le_trans (Nat.le_add_right _ _) hlast
  rcases he with he | rfl
  · obtain ⟨s', rest', h', hlast'⟩ := h.next hok he hlast
    have hsteady := h.steady_next hok he hceiling
    refine ⟨s', _, rest', h', hlast', ?_⟩
    rw [h.place_eq h' hsteady]
    exact hsteady.tidy _ htidy
  · obtain ⟨s', c', rest', h', hlast', hsteady⟩ := h.clear hok hceiling htidy
    refine ⟨s', c', rest', h', Nat.le_trans hlast' (Nat.le_add_right _ _), ?_⟩
    rw [h.place_eq h' hsteady]
    exact hsteady.tidy _ htidy

theorem after_use (hok : ∀ config, ok config → config.dir = dir) (es : List Incident)
    (hes : ∀ e ∈ es, e.Uses ok) (hlast : s.last + w.rotations dir es ≤ Saturating.ceiling)
    (htidy : w.disk.Tidy s.place) :
    ∃ s' c' rest', Kept ok dir (w.after dir es) s' c' rest' ∧
      s'.last ≤ s.last + w.rotations dir es := by
  induction es generalizing w s c rest with
  | nil => exact ⟨s, c, rest, h, Nat.le_refl _⟩
  | cons e es ih =>
    simp only [Workbench.rotations] at hlast ⊢
    obtain ⟨s₁, c₁, rest₁, h₁, hlast₁, htidy₁⟩ :=
      h.next_use hok (hes e List.mem_cons_self) (by omega) htidy
    obtain ⟨s', c', rest', h', hlast'⟩ :=
      ih h₁ (fun e' he' => hes e' (List.mem_cons_of_mem _ he')) (by omega) htidy₁
    exact ⟨s', c', rest', h', by omega⟩

omit h in
/-- A run in an empty directory, in which the log may be cleared, leaves some chapters there. -/
theorem of_use (hok : ∀ config, ok config → config.dir = dir)
    (hd : w.disk.list (.ofText dir) = .ok []) (hg : w.group = none) (es : List Incident)
    (hes : ∀ e ∈ es, e.Uses ok) (hrotations : w.rotations dir es < 2 ^ 64) :
    ∃ s c rest, Kept ok dir (w.after dir es) s c rest ∧ s.last ≤ w.rotations dir es := by
  obtain ⟨s, hstart, hzero⟩ := @start ok dir w hd hg
  have htidy : w.disk.Tidy s.place := by
    have hlist := Disk.list_of_directory
      (Disk.resolve_eq_ok_iff.2 ⟨hstart.on.locate, hstart.on.isDir⟩)
    rw [hstart.dir, hd, Except.ok.injEq] at hlist
    rw [Disk.Tidy, ← hlist]
    exact .nil
  obtain ⟨s', c', rest', hkept, hlast⟩ := hstart.after_use hok es hes
    (by rw [hzero, Nat.zero_add]; exact Nat.le_pred_of_lt hrotations) htidy
  exact ⟨s', c', rest', hkept, by omega⟩

end Kept

end ConsensusCore
