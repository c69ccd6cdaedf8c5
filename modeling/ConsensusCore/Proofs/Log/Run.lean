import ConsensusCore.Proofs.Log.Incident

/-!
# Runs of a log

As long as nobody but the log changes its files, the directory has the chapters of the log
on its shelf (`Kept`), whatever happens to it. A head that was cut has a torn record after
its messages, until the log is opened again.

* `Kept.next`: an incident keeps the chapters, as they are then;
* `Kept.after`: so does a run, in which the numbers of the segments do not run out.
-/

namespace ConsensusCore

open LogConfig

/-- The message has an envelope that fits a record, also as readers see it. -/
def Storable (ok : LogConfig → Prop) (m : Input) : Prop :=
  m.envelope.length < 2 ^ 32 ∧ ∀ max, Uniform ok max → m.envelope.length ≤ max

/-- The directory of a log has its chapters on a shelf, and a log that is open knows that
    shelf. After the head there may be a torn record, as long as the log is not open and
    the configurations agree on how long envelopes may be. -/
structure Kept (ok : LogConfig → Prop) (dir : String) (w : Workbench) (s : Shelf)
    (c : Chapters) (rest : Bytes) : Prop where
  dir : s.dir = .ofText dir
  on : s.On w.disk
  fill : c.Fill rest s w.disk
  storable : ∀ m ∈ c.all, Storable ok m
  torn : rest = [] ∨ ∃ max, Uniform ok max ∧ Record.Torn max rest
  config : ∀ g, w.group = some g → ok g.config ∧ g.config.validate = .ok ()
  opened : ∀ g, w.group = some g → g.isClosed = false →
    rest = [] ∧ ∃ id, g.OpenOn s id w.disk

/-! ## Incidents -/

namespace Kept

variable {ok : LogConfig → Prop} {dir : String} {w w' : Workbench} {s s' : Shelf}
  {c c' : Chapters} {rest : Bytes} {g g' : Group} {id : FileId}
variable (h : Kept ok dir w s c rest)
include h

/-- Without the log, or with it as it was, the disk is as good. -/
theorem same (hd : w'.disk = w.disk) (hg : w'.group = w.group ∨ w'.group = none) :
    Kept ok dir w' s c rest := by
  refine ⟨h.dir, hd ▸ h.on, hd ▸ h.fill, h.storable, h.torn, fun g hw => ?_, fun g hw => ?_⟩
  · rcases hg with hg | hg
    · exact h.config g (hg ▸ hw)
    · rw [hg] at hw; cases hw
  · rcases hg with hg | hg
    · exact hd ▸ h.opened g (hg ▸ hw)
    · rw [hg] at hw; cases hw

/-- A log that is open, on whatever shelf it is now. -/
theorem reopen (hdir : s'.dir = s.dir) (hg : w'.group = some g') (hopen : g'.OpenOn s' id w'.disk)
    (hconfig : ok g'.config ∧ g'.config.validate = .ok ()) (hfill : c'.Fill [] s' w'.disk)
    (hall : ∀ m ∈ c'.all, Storable ok m) : Kept ok dir w' s' c' [] := by
  refine ⟨hdir.trans h.dir, hopen.on, hfill, hall, .inl rfl, fun g hw => ?_, fun g hw _ => ?_⟩
  · cases hg.symm.trans hw
    exact hconfig
  · cases hg.symm.trans hw
    exact ⟨rfl, id, hopen⟩

theorem write (m : Input) :
    Kept ok dir (w.run (.write m)).2 s (c.next w (.act (.write m))) rest := by
  by_cases hfits : ∃ g, w.group = some g ∧ g.isClosed = false ∧
      m.envelope.length ≤ g.config.maxRecordSize
  · obtain ⟨g, hg, hopen, hm⟩ := hfits
    obtain ⟨rfl, id, hid⟩ := h.opened g hg hopen
    have hconfig := h.config g hg
    simp only [Chapters.next, Workbench.run_write_of_fits hg hid.head hm, WorkbenchAnswer.isDone,
      if_true]
    refine h.reopen rfl rfl (hid.write _) hconfig (h.fill.write hid.on.nodup hid.lt hid.shelf m) ?_
    refine Chapters.forall_mem_all_write.2 ⟨h.storable, ?_, fun max hmax => hmax _ hconfig.1 ▸ hm⟩
    exact Nat.lt_of_le_of_lt hm (LogConfig.maxRecordSize_lt hconfig.2)
  · have hnot := Workbench.run_write_of_not_fits (w := w) (m := m) fun g hg hopen hm =>
      hfits ⟨g, hg, hopen, hm⟩
    -- what is refused is not written, whether the log is closed or the message too long
    simp only [Chapters.next, hnot.1, hnot.2, Bool.false_eq_true, if_false]
    exact h

theorem rotate (hlast : s.last + (w.seals (.act .rotate)).toNat ≤ Saturating.ceiling) :
    ∃ s', Kept ok dir (w.run .rotate).2 s' (c.next w (.act .rotate)) rest ∧
      s'.last ≤ s.last + (w.seals (.act .rotate)).toNat := by
  by_cases hopen : ∃ g, w.group = some g ∧ g.isClosed = false
  · obtain ⟨g, hg, hopen⟩ := hopen
    obtain ⟨rfl, id, hid⟩ := h.opened g hg hopen
    simp only [Workbench.run_rotate hg, Chapters.next, Workbench.seals, Workbench.trimmed, hg,
      Option.any_some] at hlast ⊢
    cases hr : g.rotate w.disk with
    | error e => exact ⟨s, h, Nat.le_add_right _ _⟩
    | ok r =>
      rw [hr] at hlast
      obtain ⟨hid', hconfig, hcontent⟩ := hid.rotate_ok hlast hr
      refine ⟨s.rotated id w.disk.contents.length,
        h.reopen rfl rfl hid' (hconfig ▸ h.config g hg) (h.fill.rotated hid.shelf hcontent) ?_,
        Nat.le_of_eq (Shelf.last_rotated _ _ _)⟩
      intro m hm
      exact h.storable m (Chapters.all_sealHead c ▸ hm)
  · obtain ⟨hrun, hseals⟩ := Workbench.run_rotate_of_closed (w := w) fun g hg => by
      simpa using fun hclosed => hopen ⟨g, hg, hclosed⟩
    simp only [Chapters.next, hrun, hseals, Workbench.trimmed, Chapters.drop_zero,
      Bool.false_eq_true, if_false]
    exact ⟨s, h, Nat.le_refl _⟩

/-- Once the head is sealed, if that is due, the oldest chapters go with their tails. -/
theorem trim {g₁ : Group} {s₁ : Shelf} {c₁ : Chapters} {d₁ : Disk} (hg : w.group = some g)
    (hid : g.OpenOn s id w.disk) (hseal : g.sealIfDue w.disk = .ok (g₁, d₁)) {id₁ : FileId}
    (hid₁ : g₁.OpenOn s₁ id₁ d₁) (hconfig₁ : g₁.config = g.config) (hdir₁ : s₁.dir = s.dir)
    (hfirst₁ : s₁.first = s.first) (hfill₁ : c₁.Fill [] s₁ d₁) (hall₁ : c₁.all = c.all) :
    ∃ s', Kept ok dir (w.run .checkLimits).2 s'
        (c₁.drop (w.trimmed (.act .checkLimits))) [] ∧ s'.last = s₁.last := by
  obtain ⟨g', d', hcheck, hid', hconfig, hcontents, -⟩ :=
    hid₁.checkLimits_of_sealed hid.isClosed hseal
  have hrun := Workbench.run_checkLimits hg
  have htrimmed : w.trimmed (.act .checkLimits) = g₁.surplus s₁ d₁ := by
    simp only [Workbench.trimmed, hg, hrun, hcheck, hid'.min, hid.min, Shelf.drop, hfirst₁]
    omega
  rw [htrimmed, hrun, hcheck]
  refine ⟨s₁.drop (g₁.surplus s₁ d₁), h.reopen hdir₁ rfl hid' ?_ ?_ ?_,
    Shelf.last_drop (g₁.surplus_le s₁ d₁)⟩
  · rw [hconfig, hconfig₁]
    exact h.config g hg
  · exact (hfill₁.drop _).congr fun f => by rw [Disk.content, hcontents]; rfl
  · intro m hm
    exact h.storable m (hall₁ ▸ (c₁.all_drop_suffix _).subset hm)

theorem checkLimits (hlast : s.last + (w.seals (.act .checkLimits)).toNat ≤ Saturating.ceiling) :
    ∃ s', Kept ok dir (w.run .checkLimits).2 s' (c.next w (.act .checkLimits)) rest ∧
      s'.last ≤ s.last + (w.seals (.act .checkLimits)).toNat := by
  by_cases hopen : ∃ g, w.group = some g ∧ g.isClosed = false
  · obtain ⟨g, hg, hopen⟩ := hopen
    obtain ⟨rfl, id, hid⟩ := h.opened g hg hopen
    simp only [Workbench.seals, hg, Option.any_some] at hlast
    simp only [Chapters.next, Workbench.seals, hg, Option.any_some]
    by_cases hdue : g.config.headSizeLimit ≤ g.headSize
    · simp only [hdue, decide_true, Bool.true_and] at hlast ⊢
      cases hr : g.rotate w.disk with
      | error e =>
        -- the head that cannot be sealed stays, and nothing is deleted either
        have hseal : g.sealIfDue w.disk = .error e := by rw [Group.sealIfDue, if_pos hdue, hr]
        have hcheck := Group.checkLimits_of_error hopen hseal
        refine ⟨s, ?_, Nat.le_add_right _ _⟩
        simp only [Workbench.trimmed, hg, Workbench.run_checkLimits hg, hcheck, Nat.sub_self,
          Chapters.drop_zero]
        exact h.same rfl (.inl hg.symm)
      | ok r =>
        rw [hr] at hlast
        obtain ⟨hid₁, hconfig, hcontent⟩ := hid.rotate_ok hlast hr
        have hseal : g.sealIfDue w.disk = .ok r := by rw [Group.sealIfDue, if_pos hdue, hr]
        obtain ⟨s', hkept, hlast'⟩ := h.trim hg hid hseal hid₁ hconfig rfl rfl
          (h.fill.rotated hid.shelf hcontent) (Chapters.all_sealHead c)
        exact ⟨s', hkept, Nat.le_of_eq (hlast'.trans (Shelf.last_rotated _ _ _))⟩
    · have hseal : g.sealIfDue w.disk = .ok (g, w.disk) := by rw [Group.sealIfDue, if_neg hdue]
      obtain ⟨s', hkept, hlast'⟩ := h.trim hg hid hseal hid rfl rfl rfl h.fill rfl
      refine ⟨s', ?_, Nat.le_trans (Nat.le_of_eq hlast') (Nat.le_add_right _ _)⟩
      simpa [hdue] using hkept
  · obtain ⟨hrun, hseals, htrimmed⟩ := Workbench.run_checkLimits_of_closed (w := w) fun g hg => by
      simpa using fun hclosed => hopen ⟨g, hg, hclosed⟩
    simp only [Chapters.next, hrun, hseals, htrimmed, Chapters.drop_zero, Bool.false_eq_true,
      if_false]
    exact ⟨s, h, Nat.le_refl _⟩

/-- The shelf that is left when the log is not open any more. -/
theorem shut {rest' : Bytes} (hdir : s'.dir = s.dir) (hon : s'.On w'.disk)
    (hfill : c'.Fill rest' s' w'.disk) (hall : ∀ m ∈ c'.all, m ∈ c.all)
    (htorn : rest' = [] ∨ ∃ max, Uniform ok max ∧ Record.Torn max rest') (hg : w'.group = none) :
    Kept ok dir w' s' c' rest' :=
  ⟨hdir.trans h.dir, hon, hfill, fun m hm => h.storable m (hall m hm), htorn,
    fun g hw => (by rw [hg] at hw; cases hw), fun g hw => (by rw [hg] at hw; cases hw)⟩

/-! ## Opening -/

theorem repaired {config : LogConfig} (hok : ok config) :
    Record.repaired config.maxRecordSize (frames c.head ++ rest) = frames c.head := by
  have hhead : ∀ m ∈ c.head, Storable ok m := fun m hm =>
    h.storable m (List.mem_append_right _ hm)
  -- only a torn record needs all messages before it to be read, and then they can be
  rcases h.torn with rfl | ⟨max, hmax, htorn⟩
  · rw [List.append_nil]
    exact repaired_frames fun m hm => (hhead m hm).1
  · rw [hmax config hok]
    exact Record.repaired_encodeAll
      (List.forall_mem_map.2 fun m hm => ⟨(hhead m hm).2 max hmax, (hhead m hm).1⟩) htorn

/-- Opening finds the chapters, and puts an end to the rest. -/
theorem openLog {config : LogConfig} (watched : Bool) (hok : ok config) (hdir : config.dir = dir)
    (hlast : s.last ≤ Saturating.ceiling) :
    ∃ s' rest', Kept ok dir (w.run (.openLog config watched)).2 s' c rest' ∧ s'.last ≤ s.last := by
  have hdir' : Group.dir config = s.dir := by rw [h.dir, Group.dir, hdir]
  cases hvalid : config.validate with
  | error e =>
    obtain ⟨hd, hg⟩ := Workbench.run_openLog_of_error (w := w) hvalid watched
    exact ⟨s, rest, h.same hd (.inr hg), Nat.le_refl _⟩
  | ok u =>
    obtain ⟨hd, hg⟩ := Workbench.run_openLog (w := w) hvalid watched
    cases hhead : s.head with
    | some id =>
      have hrepaired := h.repaired hok
      rw [← h.fill.head_content hhead] at hrepaired
      obtain ⟨g', hopen, hid', rfl⟩ := Group.openIn_of_head h.on hdir' hlast hhead hrepaired
      simp only [hopen] at hd hg
      refine ⟨s.renumber, [], h.reopen rfl hg (hd ▸ hid') ⟨hok, hvalid⟩ ?_ h.storable,
        s.last_renumber_le⟩
      have hset := h.fill.setContent c [] h.on.nodup (h.on.lt_head hhead) hhead rfl
      rw [List.append_nil] at hset
      exact hd ▸ hset.renumber
    | none =>
      by_cases hadm : s.dir.Admits headName
      · obtain ⟨g', hopen, hid', rfl⟩ := Group.openIn_of_none h.on hdir' hlast hhead hadm
        simp only [hopen] at hd hg
        refine ⟨s.renumber.withHead w.disk.contents.length, [],
          h.reopen rfl hg (hd ▸ hid') ⟨hok, hvalid⟩ ?_ h.storable, s.last_renumber_le⟩
        have hcontent := Disk.content_create w.disk (s.place ++ [headName])
        refine hd ▸ (h.fill.renumber.congr hcontent).withHead (h.fill.head_eq_nil hhead).1 ?_
        rw [hcontent, Disk.content_length_contents]
      · obtain ⟨e, hopen⟩ := Group.openIn_error h.on hdir' hlast hhead hadm
        rw [hopen] at hd hg
        exact ⟨s, rest, h.same hd (.inr hg), Nat.le_refl _⟩

/-! ## Stopping -/

/-- Of the head that is cut, the messages before the cut are left. -/
theorem crash (n : Nat) (huniform : ∃ max, Uniform ok max) :
    ∃ rest', Kept ok dir (w.next dir (.crash n)) s (c.cut n) rest' := by
  have hfile : ∀ id, w.disk.fileAt (.ofText dir ++ [headName]) = .ok id ↔ s.head = some id := by
    intro id
    rw [← h.dir, h.on.fileAt_eq_ok_iff Segment.isEntry_headName, Shelf.names_head_iff]
  have hcut : ∀ m ∈ (c.cut n).all, m ∈ c.all := fun m hm =>
    ((List.Sublist.refl _).append (Chapters.within_sublist n c.head)).subset hm
  cases hhead : s.head with
  | none =>
    -- there is no head to be cut, and nothing was in it
    have hnil := h.fill.head_eq_nil hhead
    have hdisk : (w.next dir (.crash n)).disk = w.disk := by
      simp only [Workbench.next, Workbench.stopped, Workbench.cutFile]
      split
      · next id hid => rw [hfile, hhead] at hid; cases hid
      · rfl
    refine ⟨rest, h.shut rfl (hdisk ▸ h.on) ?_ hcut h.torn rfl⟩
    have hc : c.cut n = c := by
      obtain ⟨tails, head⟩ := c
      cases hnil.1
      rfl
    rw [hc, hdisk]
    exact h.fill
  | some id =>
    have hdisk : (w.next dir (.crash n)).disk =
        w.disk.setContent id ((w.disk.content id).take n) := by
      simp only [Workbench.next, Workbench.stopped, Workbench.cutFile, (hfile id).2 hhead]
    obtain ⟨max, hmax, htorn⟩ : ∃ max, Uniform ok max ∧ Record.Torn max rest := by
      rcases h.torn with rfl | htorn
      · exact huniform.imp fun max hmax => ⟨hmax, Record.torn_nil max⟩
      · exact htorn
    obtain ⟨rest', htorn', htake⟩ := Record.take_encodeAll
      (List.forall_mem_map.2 fun m hm => by
        have hm' := h.storable m (List.mem_append_right _ hm)
        exact ⟨hm'.2 max hmax, hm'.1⟩) htorn n
    rw [Chapters.whole_map_envelope] at htake
    refine ⟨rest', h.shut rfl ?_ ?_ hcut (.inr ⟨max, hmax, htorn'⟩) rfl⟩
    · rw [hdisk]
      exact h.on.setContent _ _
    · rw [hdisk, h.fill.head_content hhead, frames, htake]
      exact h.fill.setContent (c.cut n) rest' h.on.nodup (h.on.lt_head hhead) hhead rfl

/-- When the head has been renamed, it is the last of the tails. -/
theorem halt : ∃ s' rest', Kept ok dir (w.next dir .halt) s' (c.next w .halt) rest' ∧
    s'.last ≤ s.last + (w.seals .halt).toNat := by
  cases hhalf : w.group.bind fun g => g.halfRotated? w.disk with
  | none =>
    have hseals : w.seals .halt = false := by
      cases hg : w.group with
      | none => simp [Workbench.seals, hg]
      | some g => simpa [Workbench.seals, hg] using hhalf
    refine ⟨s, rest, ?_, Nat.le_add_right _ _⟩
    simp only [Chapters.next, hseals, Workbench.trimmed, Chapters.drop_zero, Workbench.next, hhalf,
      Bool.false_eq_true, if_false]
    exact h.same rfl (.inr rfl)
  | some d' =>
    obtain ⟨g, hg, hd'⟩ := Option.bind_eq_some_iff.1 hhalf
    have hseals : w.seals .halt = true := by simp [Workbench.seals, hg, hd']
    obtain ⟨id, hid, hren⟩ : ∃ id, g.head = some id ∧
        w.disk.rename (Group.headRoute g.config) (Group.tailRoute g.config g.maxIndex) =
          .ok d' := by
      rw [Group.halfRotated?] at hd'
      split at hd'
      · next id d hhead hren => exact ⟨id, hhead, by rw [hren, Option.some.inj hd']⟩
      · cases hd'
    obtain ⟨rfl, id', hopen⟩ := h.opened g hg (by simp [Group.isClosed, hid])
    by_cases hadm : s.dir.Admits (Segment.tailName s.last)
    · obtain ⟨d'', hren', hon, hcontents⟩ := hopen.rename hadm
      cases hren.symm.trans hren'
      refine ⟨s.sealHead id', [], ?_, ?_⟩
      · simp only [Chapters.next, hseals, Workbench.trimmed, Chapters.drop_zero, Workbench.next,
          hhalf, if_true]
        refine h.shut rfl hon ?_ (fun m hm => Chapters.all_sealHead c ▸ hm) (.inl rfl) rfl
        exact (h.fill.sealHead hopen.shelf rfl).congr fun f => by
          simp only [Workbench.stopped, Option.getD_some, Disk.content, hcontents]
      · rw [hseals]
        simp only [Shelf.last, Shelf.sealHead, List.length_append, List.length_singleton,
          Bool.toNat_true]
        omega
    · obtain ⟨e, he⟩ := hopen.rename_error hadm
      rw [hren] at he
      cases he

/-! ## Runs -/

theorem close : Kept ok dir (w.run .close).2 s c rest := by
  cases hg : w.group with
  | none =>
    have hrun : (w.run .close).2 = w := by simp [Workbench.run, Workbench.withLog, hg]
    rwa [hrun]
  | some g =>
    have hrun : (w.run .close).2 = { w with group := some g.close } := by
      simp [Workbench.run, Workbench.withLog, hg, Workbench.putLog, Log.close]
    rw [hrun]
    refine ⟨h.dir, h.on, h.fill, h.storable, h.torn, fun g' hw => ?_, fun g' hw hopen => ?_⟩
    · cases hw
      exact h.config g hg
    · cases hw
      cases hopen

/-- What happens to a log keeps its chapters, as they are then. -/
theorem next (hok : ∀ config, ok config → config.dir = dir) {e : Incident} (he : e.Operates ok)
    (hlast : s.last + (w.seals e).toNat ≤ Saturating.ceiling) :
    ∃ s' rest', Kept ok dir (w.next dir e) s' (c.next w e) rest' ∧
      s'.last ≤ s.last + (w.seals e).toNat := by
  cases e with
  | crash n =>
    obtain ⟨rest', hkept⟩ := h.crash n he
    exact ⟨s, rest', hkept, Nat.le_add_right _ _⟩
  | halt => exact h.halt
  | act a =>
    rcases w.operates_cases he with ⟨config, watched, rfl⟩ | ⟨m, rfl⟩ | rfl | rfl | rfl | hlooks
    · exact h.openLog watched he (hok config he) hlast
    · exact ⟨s, rest, h.write m, Nat.le_add_right _ _⟩
    · exact (h.rotate hlast).imp fun s' hs' => ⟨rest, hs'⟩
    · exact (h.checkLimits hlast).imp fun s' hs' => ⟨rest, hs'⟩
    · exact ⟨s, rest, h.close, Nat.le_refl _⟩
    · rw [hlooks.chapters]
      exact ⟨s, rest, h.same hlooks.disk hlooks.group, Nat.le_add_right _ _⟩

/-- A run keeps the chapters, as they are then, if the numbers of the segments do not
    run out. -/
theorem after (hok : ∀ config, ok config → config.dir = dir) (es : List Incident)
    (hes : ∀ e ∈ es, e.Operates ok)
    (hlast : s.last + w.rotations dir es ≤ Saturating.ceiling) :
    ∃ s' rest', Kept ok dir (w.after dir es) s' (c.after dir w es) rest' ∧
      s'.last ≤ s.last + w.rotations dir es := by
  induction es generalizing w s c rest with
  | nil => exact ⟨s, rest, h, Nat.le_refl _⟩
  | cons e es ih =>
    simp only [Workbench.rotations] at hlast ⊢
    obtain ⟨s₁, rest₁, h₁, hlast₁⟩ := h.next hok (hes e List.mem_cons_self) (by omega)
    obtain ⟨s', rest', h', hlast'⟩ :=
      ih h₁ (fun e' he' => hes e' (List.mem_cons_of_mem _ he')) (by omega)
    exact ⟨s', rest', h', by omega⟩

omit h in
/-- At first, the directory is empty. -/
theorem start (hd : w.disk.list (.ofText dir) = .ok []) (hg : w.group = none) :
    ∃ s, Kept ok dir w s .empty [] ∧ s.last = 0 := by
  obtain ⟨p, hp⟩ : ∃ p, w.disk.resolve (.ofText dir) = .ok (p, .directory) := by
    rw [Disk.list] at hd
    split at hd
    · next p hr => exact ⟨p, hr⟩
    · cases hd
    · cases hd
  obtain ⟨hl, hdir⟩ := Disk.resolve_eq_ok_iff.1 hp
  have hnames : ∀ {name id}, ¬Shelf.Names ⟨.ofText dir, p, 0, [], none⟩ name id := by
    rintro name id (hn | hn) <;> cases hn
  refine ⟨⟨.ofText dir, p, 0, [], none⟩,
    ⟨rfl, ⟨hl, hdir, fun name n => ?_, fun name id hn => absurd hn hnames, .nil, ?_⟩,
      ⟨rfl, rfl⟩, ?_, .inl rfl, ?_, ?_⟩, rfl⟩
  · constructor
    · intro hf
      cases (Disk.mem_list hl hd).2 ⟨n, hf⟩
    · rintro ⟨id, _, hn⟩
      exact absurd hn hnames
  · intro id hid
    cases hid
  · intro m hm
    cases hm
  · intro g hw
    rw [hg] at hw; cases hw
  · intro g hw
    rw [hg] at hw; cases hw

omit h in
/-- A run in an empty directory leaves its chapters there. -/
theorem of_run (hok : ∀ config, ok config → config.dir = dir)
    (hd : w.disk.list (.ofText dir) = .ok []) (hg : w.group = none) (es : List Incident)
    (hes : ∀ e ∈ es, e.Operates ok) (hrotations : w.rotations dir es < 2 ^ 64) :
    ∃ s rest, Kept ok dir (w.after dir es) s (Chapters.empty.after dir w es) rest ∧
      s.last ≤ w.rotations dir es := by
  obtain ⟨s, hstart, hzero⟩ := @start ok dir w hd hg
  obtain ⟨s', rest', hkept, hlast⟩ := hstart.after hok es hes
    (by rw [hzero, Nat.zero_add]; exact Nat.le_pred_of_lt hrotations)
  exact ⟨s', rest', hkept, by omega⟩

end Kept

end ConsensusCore
