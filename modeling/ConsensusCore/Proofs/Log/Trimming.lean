import ConsensusCore.Proofs.Log.Session

/-!
# Readers of a log that is trimmed

When the limits of a log are checked, its oldest segments are deleted. Its readers are not told.
A reader goes on in a file that it has open, deleted or not, but it cannot open one that is not
there any more, nor does it look for the oldest one that is. Once it needs such a segment, the
reader is *stranded* (`Reader.Stranded`).

* `Reader.Trails.read_next`: a reader that is not stranded returns the next message in the
  archive of the log, or waits at its end;
* `Reader.Trails.read_stranded`: one that is stranded fails;
* `Log.reads_trimmed`: so a reader returns the messages from its start on, in order and each
  once, until it is stranded, and none after that.
-/

namespace ConsensusCore

variable {log log' : Log} {r r' : Reader} {s : Shelf} {id : FileId} {c : Chapters} {k : Nat}
  {before after ms : List Input} {m : Input}

/-! ## Stranded readers -/

namespace Reader

/-- The reader needs a segment that has been deleted: its own, if it has yet to open that, or
    the next one, if it has read all of its own. -/
def Stranded (r : Reader) (log : Log) : Prop :=
  match r.segment with
  | none => r.index < log.group.minIndex
  | some (cur, _) => r.index + 1 < log.group.minIndex ∧
      ∃ f, cur.node = .file f ∧ (log.disk.content f).length ≤ cur.position

theorem stranded_of_none (hseg : r.segment = none) :
    r.Stranded log ↔ r.index < log.group.minIndex := by
  simp only [Stranded, hseg]

theorem stranded_of_some {cur : Cursor} {path : String} (hseg : r.segment = some (cur, path)) :
    r.Stranded log ↔ r.index + 1 < log.group.minIndex ∧
      ∃ f, cur.node = .file f ∧ (log.disk.content f).length ≤ cur.position := by
  simp only [Stranded, hseg]

namespace Stands

variable (h : r.Stands log s c k before after)
include h

/-- A reader that has its segment open is at its end if no message is ahead in it. -/
theorem after_eq_nil_iff {cur : Cursor} {path : String} (hlog : log.Backs s c [])
    (hseg : r.segment = some (cur, path)) :
    after = [] ↔ ∃ f, cur.node = .file f ∧ (log.disk.content f).length ≤ cur.position := by
  obtain ⟨f, hf, hnode, -, hpos⟩ := h.segment cur path hseg
  have hcontent := hlog.content hf h.messages
  rw [Shelf.restAt_nil, List.append_nil, frames_append] at hcontent
  -- the bytes of the messages ahead are those behind the position
  have hlength := congrArg List.length hcontent
  rw [List.length_append, ← h.offset, ← hpos] at hlength
  rw [← frames_eq_nil, ← List.length_eq_zero_iff]
  constructor
  · intro hnil
    exact ⟨f, hnode, by omega⟩
  · rintro ⟨f', hnode', hle⟩
    cases hnode.symm.trans hnode'
    omega

/-- What a reader needs is there, unless it is stranded. -/
theorem served_of_not_stranded (hlog : log.Backs s c []) (hnot : ¬r.Stranded log) :
    r.Served log after := by
  cases hseg : r.segment with
  | none =>
    rw [stranded_of_none hseg, Nat.not_lt] at hnot
    exact ⟨fun _ => hnot, fun _ => Nat.le_succ_of_le hnot⟩
  | some seg =>
    rw [stranded_of_some hseg, ← h.after_eq_nil_iff hlog hseg, not_and'] at hnot
    exact ⟨opens_of_some hseg, fun hafter => Nat.not_lt.1 (hnot hafter)⟩

/-- A segment that has been deleted cannot be opened. -/
theorem read_deleted {j : Nat} (hlog : log.Archives s id c j) (hseg : r.segment = none)
    (hdeleted : r.index < log.group.minIndex) : log.read r = (.error (.disk .notFound), r) := by
  have hresolve := hlog.resolve_deleted (by rw [h.index]; omega) hdeleted
  rw [Log.read, Reader.read]
  simp only [Reader.currentSegment, hseg, openSegment, hresolve, Except.map]

/-- A reader that is stranded fails, and stays so. -/
theorem read_stranded {j : Nat} (hlog : log.Archives s id c j) (hstranded : r.Stranded log) :
    ∃ r', log.read r = (.error (.disk .notFound), r') ∧ r'.Stranded log ∧
      r'.Ahead log s c (after ++ (c.segments.drop (k + 1)).flatten) ∧
      r'.maxRecordSize = r.maxRecordSize := by
  cases hseg : r.segment with
  | none =>
    have hdeleted := (stranded_of_none hseg).1 hstranded
    exact ⟨r, h.read_deleted hlog hseg hdeleted, hstranded, h.ahead, rfl⟩
  | some seg =>
    obtain ⟨cur, path⟩ := seg
    obtain ⟨hdeleted, hend⟩ := (stranded_of_some hseg).1 hstranded
    obtain rfl := (h.after_eq_nil_iff hlog.backs hseg).2 hend
    -- it goes on to the next segment, and has yet to open that
    have hk : k < s.tails.length := by
      have hmin := hlog.min
      have hle := hlog.le
      rw [h.index] at hdeleted
      omega
    obtain ⟨r₁, ms, hread, hget, h₁, hseg₁, hmax⟩ :=
      h.read_tail hlog.backs (opens_of_some hseg) hk
    have hdeleted₁ : r₁.index < log.group.minIndex := by
      rw [h₁.index, ← Nat.add_assoc, ← h.index]
      exact hdeleted
    obtain ⟨hlt, rfl⟩ := List.getElem?_eq_some_iff.1 hget
    refine ⟨r₁, hread.trans (h₁.read_deleted hlog hseg₁ hdeleted₁),
      (stranded_of_none hseg₁).2 hdeleted₁, ?_, hmax⟩
    rw [List.nil_append, List.drop_eq_getElem_cons hlt, List.flatten_cons]
    exact h₁.ahead

/-- Nothing is written to the segment that a stranded reader has open. -/
theorem mem_tails_of_stranded {j : Nat} {cur : Cursor} {path : String} {f : FileId}
    (hlog : log.Archives s id c j) (hstranded : r.Stranded log)
    (hseg : r.segment = some (cur, path)) (hf : cur.node = .file f) : f ∈ s.tails := by
  obtain ⟨hdeleted, -⟩ := (stranded_of_some hseg).1 hstranded
  obtain ⟨f', hf', hnode, -⟩ := h.segment cur path hseg
  cases hf.symm.trans hnode
  -- the next segment has been deleted, and the head never is
  have hmin := hlog.min
  have hle := hlog.le
  rw [h.index] at hdeleted
  rw [Shelf.files, List.getElem?_append_left (by omega)] at hf'
  exact List.mem_of_getElem? hf'

end Stands

/-- No step of the log helps a reader that is stranded. -/
theorem Stranded.keep (h : r.Stranded log) (hmin : log.group.minIndex ≤ log'.group.minIndex)
    (hcontent : ∀ cur path f, r.segment = some (cur, path) → cur.node = .file f →
      log'.disk.content f = log.disk.content f) : r.Stranded log' := by
  cases hseg : r.segment with
  | none => exact (stranded_of_none hseg).2 (Nat.lt_of_lt_of_le ((stranded_of_none hseg).1 h) hmin)
  | some seg =>
    obtain ⟨cur, path⟩ := seg
    obtain ⟨hdeleted, f, hf, hle⟩ := (stranded_of_some hseg).1 h
    refine (stranded_of_some hseg).2 ⟨Nat.lt_of_lt_of_le hdeleted hmin, f, hf, ?_⟩
    rw [hcontent cur path f hseg hf]
    exact hle

/-! ## Reading on -/

/-- The log has an archive, and the reader has some messages of it ahead that it accepts. -/
structure Trails (log : Log) (r : Reader) (ms : List Input) : Prop where
  valid : log.group.config.validate = .ok ()
  max : r.maxRecordSize = log.group.config.maxRecordSize
  fits : ∀ m ∈ ms, m.envelope.length ≤ r.maxRecordSize
  archive : ∃ s id c k, log.Archives s id c k ∧ r.Ahead log s c ms

namespace Trails

variable (h : Trails log r ms)
include h

theorem write (hwrite : log.write m = .ok log') :
    Trails log' r (ms ++ [m]) ∧ (r.Stranded log → r.Stranded log') := by
  obtain ⟨s, id, c, k, hlog, hahead⟩ := h.archive
  obtain ⟨hlog', hconfig, hmin, hcontent, htails⟩ := hlog.write h.valid hwrite
  obtain ⟨hm, -⟩ := Log.write_ok hlog.registry hwrite
  refine ⟨⟨hconfig ▸ h.valid, hconfig ▸ h.max, ?_, s, id, _, k, hlog',
    hahead.write hcontent m⟩, ?_⟩
  · exact List.forall_mem_append.2 ⟨h.fits, List.forall_mem_singleton.2 (h.max ▸ hm)⟩
  · intro hstranded
    obtain ⟨_, _, _, hstands, -⟩ := hahead
    exact hstranded.keep (Nat.le_of_eq hmin.symm) fun _ _ f hseg hf =>
      htails f (hstands.mem_tails_of_stranded hlog hstranded hseg hf)

theorem rotate (hnumber : log.group.maxIndex < Saturating.ceiling)
    (hrotate : log.rotate = .ok log') :
    Trails log' r ms ∧ (r.Stranded log → r.Stranded log') := by
  obtain ⟨s, id, c, k, hlog, hahead⟩ := h.archive
  obtain ⟨s', id', c', hlog', hsealing, hmin⟩ := hlog.rotate hnumber hrotate
  refine ⟨⟨hsealing.config ▸ h.valid, hsealing.config ▸ h.max, h.fits, s', id', c', k, hlog',
    hahead.sealing hlog.opened.head_eq hsealing⟩, fun hstranded => ?_⟩
  exact hstranded.keep (Nat.le_of_eq hmin.symm) fun _ _ f _ _ => hsealing.content f

theorem checkLimits {result : Except LogError Unit}
    (hnumber : log.group.maxIndex < Saturating.ceiling)
    (hcheck : log.checkLimits = (result, log')) :
    Trails log' r ms ∧ (r.Stranded log → r.Stranded log') := by
  obtain ⟨s, id, c, k, hlog, hahead⟩ := h.archive
  obtain ⟨s', id', c', k', hlog', hsealing, hmin⟩ := hlog.checkLimits hnumber hcheck
  refine ⟨⟨hsealing.config ▸ h.valid, hsealing.config ▸ h.max, h.fits, s', id', c', k', hlog',
    hahead.sealing hlog.opened.head_eq hsealing⟩, fun hstranded => ?_⟩
  exact hstranded.keep hmin fun _ _ f _ _ => hsealing.content f

theorem read_stranded (hstranded : r.Stranded log) :
    ∃ r', log.read r = (.error (.disk .notFound), r') ∧ r'.Stranded log ∧ Trails log r' ms := by
  obtain ⟨s, id, c, k, hlog, _, _, _, hstands, rfl⟩ := h.archive
  obtain ⟨r', hread, hstranded', hahead, hmax⟩ := hstands.read_stranded hlog hstranded
  exact ⟨r', hread, hstranded', h.valid, hmax.trans h.max, fun m hm => hmax ▸ h.fits m hm,
    s, id, c, k, hlog, hahead⟩

/-- The next message is read, wherever it is; if there is none, the reader waits. -/
theorem read_next (hnot : ¬r.Stranded log) :
    ∃ r', log.read r = (.ok ms.head?, r') ∧ Trails log r' ms.tail := by
  obtain ⟨s, id, c, k, hlog, _, _, _, hstands, hms⟩ := h.archive
  have hserved := hstands.served_of_not_stranded hlog.backs hnot
  cases ms with
  | nil =>
    obtain ⟨r', hread, hahead, hmax⟩ := hstands.read_nil hlog.backs hserved hms.symm
    exact ⟨r', hread, h.valid, hmax.trans h.max, fun m hm => hmax ▸ h.fits m hm,
      s, id, c, k, hlog, hahead⟩
  | cons m ms =>
    obtain ⟨r', hread, hahead, hmax⟩ :=
      hstands.read_cons hlog.backs hserved hms.symm (h.fits m List.mem_cons_self)
    exact ⟨r', hread, h.valid, hmax.trans h.max,
      fun m' hm' => hmax ▸ h.fits m' (List.mem_cons_of_mem _ hm'), s, id, c, k, hlog, hahead⟩

end Trails

/-- What can happen to an open log and one of its readers, as long as the numbers do not run
    out, with the messages that are written and returned. Segments may be deleted, and reading
    may fail. -/
inductive Attends (log : Log) (r : Reader) : List Input → List Input → Log → Reader → Prop
  | start : Attends log r [] [] log r
  | write {written returned : List Input} {log' log'' : Log} {r' : Reader} {m : Input} :
    Attends log r written returned log' r' → log'.write m = .ok log'' →
      Attends log r (written ++ [m]) returned log'' r'
  | rotate {written returned : List Input} {log' log'' : Log} {r' : Reader} :
    Attends log r written returned log' r' → log'.group.maxIndex < Saturating.ceiling →
      log'.rotate = .ok log'' → Attends log r written returned log'' r'
  | checkLimits {written returned : List Input} {log' log'' : Log} {r' : Reader}
      {result : Except LogError Unit} :
    Attends log r written returned log' r' → log'.group.maxIndex < Saturating.ceiling →
      log'.checkLimits = (result, log'') → Attends log r written returned log'' r'
  | read {written returned : List Input} {log' : Log} {r' r'' : Reader}
      {result : Except LogError (Option Input)} :
    Attends log r written returned log' r' → log'.read r' = (result, r'') →
      Attends log r written (returned ++ result.toOption.join.toList) log' r''

variable {written returned : List Input}

/-- What a reader has returned and what it still has ahead is what it had ahead, and what has
    been written since. -/
theorem Attends.trails (hattends : Attends log r written returned log' r')
    (h : Trails log r ms) : ∃ ahead, returned ++ ahead = ms ++ written ∧ Trails log' r' ahead := by
  induction hattends with
  | start => exact ⟨ms, by simp, h⟩
  | write _ hwrite ih =>
    obtain ⟨ahead, heq, h'⟩ := ih
    exact ⟨_, by rw [← List.append_assoc, heq, List.append_assoc], (h'.write hwrite).1⟩
  | rotate _ hnumber hrotate ih =>
    obtain ⟨ahead, heq, h'⟩ := ih
    exact ⟨ahead, heq, (h'.rotate hnumber hrotate).1⟩
  | checkLimits _ hnumber hcheck ih =>
    obtain ⟨ahead, heq, h'⟩ := ih
    exact ⟨ahead, heq, (h'.checkLimits hnumber hcheck).1⟩
  | @read written returned log' r' r'' result _ hread ih =>
    obtain ⟨ahead, heq, h'⟩ := ih
    by_cases hstranded : r'.Stranded log'
    · obtain ⟨_, hread', -, h''⟩ := h'.read_stranded hstranded
      cases hread.symm.trans hread'
      exact ⟨ahead, by simpa [Except.toOption] using heq, h''⟩
    · -- the first message ahead, if there is one, has been returned
      obtain ⟨_, hread', h''⟩ := h'.read_next hstranded
      cases hread.symm.trans hread'
      refine ⟨ahead.tail, ?_, h''⟩
      rw [← heq, List.append_assoc]
      cases ahead <;> rfl

/-- A reader that is stranded returns nothing any more. -/
theorem Attends.stranded (hattends : Attends log r written returned log' r')
    (h : Trails log r ms) (hstranded : r.Stranded log) : returned = [] ∧ r'.Stranded log' := by
  induction hattends with
  | start => exact ⟨rfl, hstranded⟩
  | write hattends hwrite ih =>
    obtain ⟨_, -, h'⟩ := hattends.trails h
    exact ⟨ih.1, (h'.write hwrite).2 ih.2⟩
  | rotate hattends hnumber hrotate ih =>
    obtain ⟨_, -, h'⟩ := hattends.trails h
    exact ⟨ih.1, (h'.rotate hnumber hrotate).2 ih.2⟩
  | checkLimits hattends hnumber hcheck ih =>
    obtain ⟨_, -, h'⟩ := hattends.trails h
    exact ⟨ih.1, (h'.checkLimits hnumber hcheck).2 ih.2⟩
  | read hattends hread ih =>
    obtain ⟨_, -, h'⟩ := hattends.trails h
    obtain ⟨rfl, hstranded'⟩ := ih
    obtain ⟨_, hread', hstranded'', -⟩ := h'.read_stranded hstranded'
    cases hread.symm.trans hread'
    exact ⟨rfl, hstranded''⟩

end Reader

/-- Readers that the log starts trail it. -/
theorem Log.Starts.trails (hlog : log.Shows s id c)
    (hvalid : log.group.config.validate = .ok ()) (hlegible : log.Legible) (h : log.Starts r) :
    Reader.Trails log r ((log.entriesFrom r.position).map Entry.message) := by
  have hfits := hlog.fits_of_legible hlegible
  have haccepts : log.Accepts c [] := ⟨hfits, Record.torn_nil _⟩
  have htracks := h.tracks hlog haccepts
  obtain ⟨k, before, after, hstands⟩ := htracks.stands
  refine ⟨hvalid, htracks.max, ?_, s, id, c, 0, hlog.archives, k, before, after, hstands, ?_⟩
  · intro m hm
    obtain ⟨e, he, rfl⟩ := List.mem_map.1 hm
    rw [htracks.max]
    refine hfits _ ?_
    rw [← c.map_message_entries s.first, ← hlog.entries haccepts]
    exact List.mem_map_of_mem (List.mem_filter.1 he).1
  · rw [hlog.entriesFrom haccepts hstands.at_position, Chapters.map_message_ahead]

/-- After any run in an empty directory, an open log that is legible is written to, sealed and
    trimmed in any way, while one of its readers is asked for messages. What the reader has
    returned, and what is ahead of it then, are the messages that were in the log from its start
    on and those that have been written since, in order and each once. It goes on with the next
    of them, or waits, unless it is stranded. Once it is, it fails for good. -/
theorem Log.reads_trimmed {ok : LogConfig → Prop} {dir : String} {w : Workbench}
    (hok : ∀ config, ok config → config.dir = dir)
    (hdir : w.disk.list (.ofText dir) = .ok []) (hgroup : w.group = none) {es : List Incident}
    (hes : ∀ e ∈ es, e.Operates ok) (hrotations : w.rotations dir es < 2 ^ 64)
    (hlog : (w.after dir es).log? = some log) (hopen : log.group.isClosed = false)
    (hlegible : log.Legible) (hstart : log.Starts r) {written returned : List Input}
    (hattends : Reader.Attends log r written returned log' r') :
    ∃ ahead, returned ++ ahead = (log.entriesFrom r.position).map Entry.message ++ written ∧
      (¬r'.Stranded log' → ∃ r₁, log'.read r' = (.ok ahead.head?, r₁)) ∧
      (r'.Stranded log' → ∀ written₁ returned₁ log₁ r₁,
        Reader.Attends log' r' written₁ returned₁ log₁ r₁ → returned₁ = [] ∧
          ∃ r₂, log₁.read r₁ = (.error (.disk .notFound), r₂)) := by
  obtain ⟨s, rest, hkept, -⟩ := Kept.of_run hok hdir hgroup es hes hrotations
  obtain ⟨-, id, hshows⟩ := hkept.shows hlog hopen
  have htrails := hstart.trails hshows (hkept.config_of_log hlog).2 hlegible
  obtain ⟨ahead, heq, htrails'⟩ := hattends.trails htrails
  refine ⟨ahead, heq, fun hnot => ?_, fun hstranded written₁ returned₁ log₁ r₁ hattends₁ => ?_⟩
  · obtain ⟨r₁, hread, -⟩ := htrails'.read_next hnot
    exact ⟨r₁, hread⟩
  · obtain ⟨hnil, hstranded₁⟩ := hattends₁.stranded htrails' hstranded
    obtain ⟨_, -, htrails₁⟩ := hattends₁.trails htrails'
    obtain ⟨r₂, hread, -⟩ := htrails₁.read_stranded hstranded₁
    exact ⟨hnil, r₂, hread⟩

/-- A run that leaves one message in a log, with limits that this is above. -/
def oneHeight : List WorkbenchAction :=
  [.openLog { LogConfig.dev "root" with headSizeLimit := 20, totalSizeLimit := 20 } false,
    .write (.endHeight ⟨5⟩)]

/-- A reader is at the end of the head when that is sealed, deleted and written after. -/
theorem log_oneHeight : ∃ log log',
    ((Workbench.empty "root").after "root" (oneHeight.map .act)).log? = some log ∧
      log.group.isClosed = false ∧ log.group.minIndex = 0 ∧ log.group.maxIndex = 0 ∧
      (log.read (.atPosition log.group 0 0)).1 = .ok (some (.endHeight ⟨5⟩)) ∧
      (log.read (log.read (.atPosition log.group 0 0)).2).1 = .ok none ∧
      (log.read (.atPosition log.group 0 0)).2.index = 0 ∧
      (log.read (.atPosition log.group 0 0)).2.segment.isSome = true ∧
      log.checkLimits.2.write (.endHeight ⟨6⟩) = .ok log' ∧ log'.group.minIndex = 1 := by
  have hall : (((Workbench.empty "root").after "root" (oneHeight.map .act)).log?.any fun log =>
      let r := Reader.atPosition log.group 0 0
      !log.group.isClosed && log.group.minIndex == 0 && log.group.maxIndex == 0 &&
        (log.read r).1.toOption == some (some (.endHeight ⟨5⟩)) &&
        (log.read (log.read r).2).1.toOption == some none && (log.read r).2.index == 0 &&
        (log.read r).2.segment.isSome &&
        (log.checkLimits.2.write (.endHeight ⟨6⟩)).toOption.any fun log' =>
          log'.group.minIndex == 1) = true := by
    decide +kernel
  have hok : ∀ {ε α : Type} {x : Except ε α} {a : α}, x.toOption = some a → x = .ok a := by
    rintro ε α (e | a') a ⟨⟩
    rfl
  simp only [Option.any_eq_true, Bool.and_eq_true, Bool.not_eq_true', beq_iff_eq] at hall
  obtain ⟨log, hlog, ⟨⟨⟨⟨⟨⟨hopen, hmin⟩, hmax⟩, hfirst⟩, hend⟩, hindex⟩, hsegment⟩,
    log', hwrite, hmin'⟩ := hall
  exact ⟨log, log', hlog, hopen, hmin, hmax, hok hfirst, hok hend, hindex, hsegment, hok hwrite,
    hmin'⟩

/-- A reader that has its segment open goes on when that has been deleted. -/
theorem reads_trimmed_oneHeight : ∃ log log' r r' r'',
    ((Workbench.empty "root").after "root" (oneHeight.map .act)).log? = some log ∧
      log.Starts r ∧
      Reader.Attends log r [.endHeight ⟨6⟩] [.endHeight ⟨5⟩] log' r' ∧
      r'.index < log'.group.minIndex ∧ log'.read r' = (.ok (some (.endHeight ⟨6⟩)), r'') := by
  obtain ⟨log, log', hlog, hopen, hmin, hmax, hfirst, hend, hindex, hsegment, hwrite, hmin'⟩ :=
    log_oneHeight
  have hes : ∀ e ∈ oneHeight.map Incident.act, e.Operates fun config =>
      config.dir = "root" ∧ config.maxRecordSize = 64 * 1024 := by
    simp [oneHeight, Incident.Operates, WorkbenchAction.Operates, LogConfig.dev]
  have hrotations : (Workbench.empty "root").rotations "root" (oneHeight.map .act) < 2 ^ 64 :=
    Nat.lt_of_le_of_lt (Workbench.rotations_le_length _ _ _) (by decide)
  obtain ⟨s, rest, hkept, -⟩ :=
    Kept.of_run (fun _ h => h.1) list_root rfl (oneHeight.map .act) hes hrotations
  have hlegible := hkept.legible (fun _ h => h.2) hlog hopen
  have hstart : log.Starts (.atPosition log.group 0 0) :=
    .newReader (by simp [Log.newReader, hopen, hmin])
  have hnot : ∀ log₁ : Log, log₁.group.minIndex ≤ 1 →
      ¬(log.read (.atPosition log.group 0 0)).2.Stranded log₁ := by
    intro log₁ hle hstranded
    obtain ⟨⟨cur, path⟩, hseg⟩ := Option.isSome_iff_exists.1 hsegment
    have := ((Reader.stranded_of_some hseg).1 hstranded).1
    omega
  -- the message that is read first is the only one in the log
  have hread := (@Reader.Attends.start log (.atPosition log.group 0 0)).read (Prod.ext hfirst rfl)
  obtain ⟨ahead, hahead, hnext, -⟩ := Log.reads_trimmed (fun _ h => h.1) list_root rfl hes
    hrotations hlog hopen hlegible hstart hread
  obtain ⟨_, hnone⟩ := hnext (hnot log (by omega))
  rw [hnone, Except.ok.injEq, List.head?_eq_none_iff] at hend
  rw [hend, List.append_nil, List.append_nil] at hahead
  -- the log is trimmed, and the second message is written
  have hnumber : log.group.maxIndex < Saturating.ceiling := by rw [hmax]; decide
  have hattends := (hread.checkLimits hnumber rfl).write hwrite
  obtain ⟨ahead', hahead', hnext', -⟩ := Log.reads_trimmed (fun _ h => h.1) list_root rfl hes
    hrotations hlog hopen hlegible hstart hattends
  obtain ⟨r'', hread'⟩ := hnext' (hnot log' (Nat.le_of_eq hmin'))
  rw [← hahead, List.append_cancel_left_eq] at hahead'
  rw [hahead'] at hread'
  exact ⟨log, log', _, _, r'', hlog, hstart, hattends,
    Nat.lt_of_le_of_lt (Nat.le_of_eq hindex) (by omega), hread'⟩

/-- A log in the same use, but with a reader that has yet to open its segment. -/
def Workbench.trimmedAhead : Workbench :=
  (empty "root").after "root" ((oneHeight ++ [WorkbenchAction.newReader "r", .checkLimits,
    .write (.endHeight ⟨6⟩)]).map .act)

/-- The reader does not find its segment, whereas a new one returns what is in the log. -/
theorem reader_stranded_trimmedAhead :
    (Workbench.trimmedAhead.run (.read "r")).1 = .read [.error (.disk .notFound)] (0, 0) ∧
      ((Workbench.trimmedAhead.run (.newReader "r")).2.run (.read "r")).1 =
        .read [.ok (some (.endHeight ⟨6⟩))] (1, (frames [.endHeight ⟨6⟩]).length) := by
  constructor <;> decide +kernel

end ConsensusCore
