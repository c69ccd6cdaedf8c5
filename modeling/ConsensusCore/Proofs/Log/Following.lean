import ConsensusCore.Proofs.Log.Archive

/-!
# Reading a log that grows

A reader goes on while the log does: messages are written, and heads are sealed. As long as
no segment is deleted, it stands where it stood, with the messages written since at the end
of those that are ahead, and the file that it has open is that of its segment, whatever name
it has got.

So in whatever order reading and writing go on (`Reader.Follows`), what the reader has
returned and what it still yields are the messages that were ahead of it at first, and then
those that have been written since (`Reader.Follows.resumes`).
-/

namespace ConsensusCore

variable {log log' : Log} {r r' : Reader} {s s' : Shelf} {id : FileId} {c c' : Chapters}
  {k : Nat} {before after ms : List Input} {m : Input}

/-! ## Operations of a log -/

namespace Log

namespace Holds

variable {rest : Bytes} (h : log.Holds s id c rest)
include h

/-- Bytes that arrive in the head are added to the rest, and may make messages of it. -/
theorem append {bs rest' : Bytes} {g : Group} {d : Disk} (htails : c'.tails = c.tails)
    (hbytes : frames c.head ++ rest ++ bs = frames c'.head ++ rest')
    (hshort : ∀ m ∈ c'.all, m.envelope.length < 2 ^ 32)
    (hwrite : log.group.write log.disk bs = .ok (g, d)) :
    Log.Holds { log with disk := d, group := g } s id c' rest' ∧
      g.config = log.group.config ∧ ∀ f, ∃ bs, d.content f = log.disk.content f ++ bs := by
  simp only [Group.write, h.opened.head, Except.ok.injEq, Prod.mk.injEq] at hwrite
  obtain ⟨rfl, rfl⟩ := hwrite
  have hfill : c'.Fill rest' s (log.disk.append id bs) := by
    rw [Disk.append, h.fill.head_content h.opened.shelf, hbytes]
    exact h.fill.setContent c' rest' h.opened.on.nodup h.opened.lt h.opened.shelf htails
  exact ⟨⟨h.registry, h.opened.head ▸ h.opened.write bs, hfill, hshort⟩, rfl,
    fun f => ⟨_, Disk.content_append h.opened.lt bs⟩⟩

/-- Once the last bytes of a record have arrived, its message is in the log. -/
theorem append_last {bs : Bytes} {g : Group} {d : Disk}
    (hbytes : rest ++ bs = Record.encode m.envelope) (hm : m.envelope.length < 2 ^ 32)
    (hwrite : log.group.write log.disk bs = .ok (g, d)) :
    Log.Holds { log with disk := d, group := g } s id (c.write m) [] ∧
      g.config = log.group.config ∧ ∀ f, ∃ bs, d.content f = log.disk.content f ++ bs := by
  refine h.append rfl ?_ (Chapters.forall_mem_all_write.2 ⟨h.short, hm⟩) hwrite
  rw [List.append_assoc, hbytes, List.append_nil]
  simp [Chapters.write, frames_singleton]

end Holds

namespace Shows

variable (h : log.Shows s id c)
include h

theorem write (hvalid : log.group.config.validate = .ok ()) (hwrite : log.write m = .ok log') :
    log'.Shows s id (c.write m) ∧ log'.group.config = log.group.config ∧
      ∀ f, ∃ bs, log'.disk.content f = log.disk.content f ++ bs := by
  obtain ⟨h', hconfig, -, hcontent, -⟩ := h.archives.write hvalid hwrite
  exact ⟨h'.shows, hconfig, hcontent⟩

/-- After sealing the head, the log shows the same messages on another shelf. -/
theorem rotate (hnumber : log.group.maxIndex < Saturating.ceiling)
    (hrotate : log.rotate = .ok log') :
    ∃ s' id' c', log'.Shows s' id' c' ∧ log.Sealing s c log' s' c' := by
  obtain ⟨s', id', c', h', hsealing, -⟩ := h.archives.rotate hnumber hrotate
  exact ⟨s', id', c', h'.shows, hsealing⟩

/-- Looking at the limits does no more than sealing the head, if nothing is deleted. -/
theorem checkLimits {result : Except LogError Unit}
    (hnumber : log.group.maxIndex < Saturating.ceiling)
    (hcheck : log.checkLimits = (result, log'))
    (hmin : log'.group.minIndex = log.group.minIndex) :
    ∃ s' id' c', log'.Shows s' id' c' ∧ log.Sealing s c log' s' c' := by
  obtain ⟨s', id', c', k', h', hsealing, -⟩ := h.archives.checkLimits hnumber hcheck
  -- the oldest number is the same, so no tail was taken away
  obtain rfl : k' = 0 := by
    have hfirst := h'.min
    rw [hmin, h.opened.min, hsealing.first] at hfirst
    omega
  exact ⟨s', id', c', h'.shows, hsealing⟩

end Shows

end Log

namespace Reader

/-! ## Readers in a log that grows -/

/-- A reader stands where it stood, if the log has what it had. -/
theorem Stands.grow {after' : List Input} (h : r.Stands log s c k before after)
    (hfirst : s'.first = s.first) (hmessages : c'.segments[k]? = some (before ++ after'))
    (hfiles : ∀ f, s.files[k]? = some f → s'.files[k]? = some f)
    (hcontent : ∀ f, ∃ bs, log'.disk.content f = log.disk.content f ++ bs) :
    r.Stands log' s' c' k before after' := by
  refine ⟨by rw [h.index, hfirst], hmessages, h.offset, fun cur path hseg => ?_⟩
  obtain ⟨f, hf, hnode, hagrees, hpos⟩ := h.segment cur path hseg
  obtain ⟨bs, hbs⟩ := hcontent f
  exact ⟨f, hfiles f hf, hnode, hbs ▸ hagrees.append bs, hpos⟩

/-- Sealing the head leaves the reader where it is. -/
theorem Stands.sealing (h : r.Stands log s c k before after) (hhead : log.group.head = s.head)
    (hsealing : log.Sealing s c log' s' c') :
    r.Stands log' s' c' k before after := by
  have hcontent : ∀ f, ∃ bs, log'.disk.content f = log.disk.content f ++ bs := fun f =>
    ⟨[], by rw [hsealing.content, List.append_nil]⟩
  obtain ⟨rfl, rfl⟩ | ⟨id', new, hid', rfl, rfl⟩ := hsealing.shelf
  · exact h.grow rfl h.messages (fun f hf => hf) hcontent
  · -- the file that was the head is in the same place, with the new one behind it
    refine h.grow rfl h.at_position.sealHead.messages (fun f hf => ?_) hcontent
    rw [Shelf.files_rotated (hhead ▸ hid'),
      List.getElem?_append_left (List.getElem?_eq_some_iff.1 hf).1]
    exact hf

theorem Ahead.sealing (h : r.Ahead log s c ms) (hhead : log.group.head = s.head)
    (hsealing : log.Sealing s c log' s' c') : r.Ahead log' s' c' ms := by
  obtain ⟨k, before, after, hstands, rfl⟩ := h
  refine ⟨k, before, after, hstands.sealing hhead hsealing, ?_⟩
  obtain ⟨rfl, rfl⟩ | ⟨id', new, -, rfl, rfl⟩ := hsealing.shelf
  · rfl
  · have hsegments : c.sealHead.segments = c.segments ++ [[]] := rfl
    rw [hsegments, List.drop_append_of_le_length hstands.at_position.lt_length,
      List.flatten_append]
    simp

/-- What is written is ahead of every reader. -/
theorem Ahead.write (h : r.Ahead log s c ms)
    (hcontent : ∀ f, ∃ bs, log'.disk.content f = log.disk.content f ++ bs) (m : Input) :
    r.Ahead log' s (c.write m) (ms ++ [m]) := by
  obtain ⟨k, before, after, hstands, rfl⟩ := h
  obtain ⟨after', hat⟩ := hstands.at_position.write m
  refine ⟨k, before, after', hstands.grow rfl hat.messages (fun f hf => hf) hcontent, ?_⟩
  have hms := congrArg (List.map Entry.message) (hstands.at_position.ahead_write hat)
  rw [List.map_append, Chapters.map_message_ahead, Chapters.map_message_ahead] at hms
  exact hms.symm

/-- What can happen to an open log and one of its readers, as long as no segment is deleted
    and the numbers do not run out, with the messages that are written and returned. -/
inductive Follows (log : Log) (r : Reader) : List Input → List Input → Log → Reader → Prop
  | start : Follows log r [] [] log r
  | write {written returned : List Input} {log' log'' : Log} {r' : Reader} {m : Input} :
    Follows log r written returned log' r' → log'.write m = .ok log'' →
      Follows log r (written ++ [m]) returned log'' r'
  | rotate {written returned : List Input} {log' log'' : Log} {r' : Reader} :
    Follows log r written returned log' r' → log'.group.maxIndex < Saturating.ceiling →
      log'.rotate = .ok log'' → Follows log r written returned log'' r'
  | checkLimits {written returned : List Input} {log' log'' : Log} {r' : Reader}
      {result : Except LogError Unit} :
    Follows log r written returned log' r' → log'.group.maxIndex < Saturating.ceiling →
      log'.checkLimits = (result, log'') → log''.group.minIndex = log'.group.minIndex →
      Follows log r written returned log'' r'
  | read {written returned : List Input} {log' : Log} {r' r'' : Reader} {m : Input} :
    Follows log r written returned log' r' → log'.read r' = (.ok (some m), r'') →
      Follows log r written (returned ++ [m]) log' r''
  | wait {written returned : List Input} {log' : Log} {r' r'' : Reader} :
    Follows log r written returned log' r' → log'.read r' = (.ok none, r'') →
      Follows log r written returned log' r''

/-- The log shows its chapters, and the reader has some messages ahead that it accepts. -/
structure Live (log : Log) (r : Reader) (ms : List Input) : Prop where
  valid : log.group.config.validate = .ok ()
  max : r.maxRecordSize = log.group.config.maxRecordSize
  fits : ∀ m ∈ ms, m.envelope.length ≤ r.maxRecordSize
  shows : ∃ s id c, log.Shows s id c ∧ r.Ahead log s c ms

namespace Live

variable (h : Live log r ms)
include h

theorem yields : Yields log r ms := by
  obtain ⟨s, id, c, hshows, hahead⟩ := h.shows
  exact hahead.yields hshows h.fits

theorem write (hwrite : log.write m = .ok log') : Live log' r (ms ++ [m]) := by
  obtain ⟨s, id, c, hshows, hahead⟩ := h.shows
  obtain ⟨hshows', hconfig, hcontent⟩ := hshows.write h.valid hwrite
  obtain ⟨hm, -⟩ := Log.write_ok hshows.registry hwrite
  refine ⟨hconfig ▸ h.valid, hconfig ▸ h.max, ?_, s, id, _, hshows', hahead.write hcontent m⟩
  exact List.forall_mem_append.2 ⟨h.fits, List.forall_mem_singleton.2 (h.max ▸ hm)⟩

theorem rotate (hnumber : log.group.maxIndex < Saturating.ceiling)
    (hrotate : log.rotate = .ok log') : Live log' r ms := by
  obtain ⟨s, id, c, hshows, hahead⟩ := h.shows
  obtain ⟨s', id', c', hshows', hsealing⟩ := hshows.rotate hnumber hrotate
  exact ⟨hsealing.config ▸ h.valid, hsealing.config ▸ h.max, h.fits, s', id', c', hshows',
    hahead.sealing hshows.opened.head_eq hsealing⟩

theorem checkLimits {result : Except LogError Unit}
    (hnumber : log.group.maxIndex < Saturating.ceiling)
    (hcheck : log.checkLimits = (result, log'))
    (hmin : log'.group.minIndex = log.group.minIndex) : Live log' r ms := by
  obtain ⟨s, id, c, hshows, hahead⟩ := h.shows
  obtain ⟨s', id', c', hshows', hsealing⟩ := hshows.checkLimits hnumber hcheck hmin
  exact ⟨hsealing.config ▸ h.valid, hsealing.config ▸ h.max, h.fits, s', id', c', hshows',
    hahead.sealing hshows.opened.head_eq hsealing⟩

theorem read {r' : Reader} (hread : log.read r = (.ok (some m), r')) :
    ∃ ms', ms = m :: ms' ∧ Live log r' ms' := by
  obtain ⟨s, id, c, hshows, hahead⟩ := h.shows
  cases ms with
  | nil =>
    obtain ⟨_, hread', -⟩ := hahead.read_nil hshows
    rw [hread] at hread'; cases hread'
  | cons m' ms =>
    obtain ⟨r'', hread', hahead', hmax⟩ := hahead.read_cons hshows (h.fits m' List.mem_cons_self)
    rw [hread] at hread'
    cases hread'
    exact ⟨ms, rfl, h.valid, hmax.trans h.max,
      fun m' hm' => hmax ▸ h.fits m' (List.mem_cons_of_mem _ hm'), s, id, c, hshows, hahead'⟩

theorem wait {r' : Reader} (hread : log.read r = (.ok none, r')) : ms = [] ∧ Live log r' [] := by
  obtain ⟨s, id, c, hshows, hahead⟩ := h.shows
  cases ms with
  | nil =>
    obtain ⟨r'', hread', hahead', hmax⟩ := hahead.read_nil hshows
    rw [hread] at hread'
    cases hread'
    exact ⟨rfl, h.valid, hmax.trans h.max, by simp, s, id, c, hshows, hahead'⟩
  | cons m' ms =>
    obtain ⟨r'', hread', -⟩ := hahead.read_cons hshows (h.fits m' List.mem_cons_self)
    rw [hread] at hread'; cases hread'

end Live

/-- What a reader has returned and what it still yields is what it had ahead, and what has
    been written since. -/
theorem Follows.resumes {written returned : List Input}
    (hfollows : Follows log r written returned log' r') (h : Live log r ms) :
    ∃ rest, returned ++ rest = ms ++ written ∧ Live log' r' rest := by
  induction hfollows with
  | start => exact ⟨ms, by simp, h⟩
  | write _ hwrite ih =>
    obtain ⟨rest, heq, hlive⟩ := ih
    exact ⟨_, by rw [← List.append_assoc, heq, List.append_assoc], hlive.write hwrite⟩
  | rotate _ hnumber hrotate ih =>
    obtain ⟨rest, heq, hlive⟩ := ih
    exact ⟨rest, heq, hlive.rotate hnumber hrotate⟩
  | checkLimits _ hnumber hcheck hmin ih =>
    obtain ⟨rest, heq, hlive⟩ := ih
    exact ⟨rest, heq, hlive.checkLimits hnumber hcheck hmin⟩
  | read _ hread ih =>
    obtain ⟨rest, heq, hlive⟩ := ih
    obtain ⟨rest', rfl, hlive'⟩ := hlive.read hread
    exact ⟨rest', by rw [List.append_assoc, List.singleton_append, heq], hlive'⟩
  | wait _ hread ih =>
    obtain ⟨rest, heq, hlive⟩ := ih
    obtain ⟨rfl, hlive'⟩ := hlive.wait hread
    exact ⟨[], heq, hlive'⟩

end Reader

end ConsensusCore
