import ConsensusCore.Proofs.Log.Entries
import ConsensusCore.Proofs.Log.Run

/-!
# Reading a log

A reader of an open log that nobody has damaged *stands* in one of its segments
(`Reader.Stands`), between the messages that are behind it there and those that are ahead.
What it reads next is the first message ahead, in this segment or in the next one that
has any; it does not come to the end before it has read them all (`Stands.read_cons`,
`Stands.read_nil`). An envelope that is longer than the reader accepts stops it instead.

For one read, only those files matter that the reader comes to: the oldest ones may have been
deleted (`Log.Backs`), as long as those that it needs have not (`Reader.Served`).

Hence in a log from which nothing is deleted it *yields* the messages ahead and nothing else
(`Ahead.yields`), and one that starts at the oldest segment yields all that is in the log.
-/

namespace ConsensusCore

/-! ## Records at a cursor -/

namespace Cursor

/-- The cursor gives the bytes that a content has from its position on. -/
def Gives (content : Bytes) (c : Cursor) (bs : Bytes) : Prop :=
  c.Agrees content ∧ c.position ≤ content.length ∧ content.drop c.position = bs

variable {c : Cursor} {content bs : Bytes}

theorem Gives.read (h : c.Gives content bs) (n : Nat) :
    (c.read content n).1 = bs.take n ∧ (c.read content n).2.Gives content (bs.drop n) := by
  obtain ⟨hagrees, hle, rfl⟩ := h
  obtain ⟨hbytes, hagrees', hpos⟩ := hagrees.read n
  rw [hbytes, List.length_take, List.length_drop] at hpos
  refine ⟨hbytes, hagrees', by omega, ?_⟩
  rw [hpos, List.drop_drop]
  by_cases hn : n ≤ content.length - c.position
  · rw [Nat.min_eq_left hn]
  · rw [List.drop_eq_nil_of_le (by omega), List.drop_eq_nil_of_le (by omega)]

theorem node_read (c : Cursor) (content : Bytes) (n : Nat) :
    (c.read content n).2.node = c.node := by
  rw [Cursor.read]
  split <;> rfl

/-- What was read ahead stays right when the file grows. -/
theorem Agrees.append (h : c.Agrees content) (bs : Bytes) : c.Agrees (content ++ bs) := by
  refine ⟨h.1, ?_⟩
  have hlen := congrArg List.length h.2
  rw [List.length_take, List.length_drop] at hlen
  by_cases hle : c.position ≤ content.length
  · rw [List.drop_append_of_le_length hle, List.take_append_of_le_length
      (by rw [List.length_drop]; omega)]
    exact h.2
  · have h0 : c.ahead.length = 0 := by omega
    rw [h0, List.take_zero]
    exact List.eq_nil_of_length_eq_zero h0

end Cursor

/-- A record is read at a cursor as it is read off the bytes that the cursor gives. -/
theorem Reader.readRecord_of_gives {d : Disk} {f : FileId} {cur : Cursor} {bs : Bytes}
    (hnode : cur.node = .file f) (h : cur.Gives (d.content f) bs) (max : Nat) :
    ∃ cur', readRecord d max cur = .ok ((Record.read max bs).1, cur') ∧
      cur'.node = .file f ∧ cur'.Gives (d.content f) (Record.read max bs).2 := by
  obtain ⟨hout, hnode', hgives⟩ := Record.readFrom_rel
    (Cursor.read (d.content f)) (fun n bs => (bs.take n, bs.drop n))
    (fun c bs => c.node = .file f ∧ c.Gives (d.content f) bs) max
    (fun n c bs hc => ⟨(hc.2.read n).1, (c.node_read _ n).trans hc.1, (hc.2.read n).2⟩)
    ⟨hnode, h⟩
  refine ⟨_, ?_, hnode', hgives⟩
  simp only [readRecord, hnode]
  exact congrArg (fun out => Except.ok (out, _)) hout

/-! ## Readers in a log -/

/-- The bytes after the messages of the `k`-th segment, if `rest` comes after those of the
    head. -/
def Shelf.restAt (s : Shelf) (rest : Bytes) (k : Nat) : Bytes :=
  if k < s.tails.length then [] else rest

/-- The log is open, and nobody has damaged it: its files have the chapters, and the head
    maybe a rest after them. -/
structure Log.Holds (log : Log) (s : Shelf) (id : FileId) (c : Chapters) (rest : Bytes) :
    Prop where
  registry : log.registry = Workbench.registry
  opened : log.group.OpenOn s id log.disk
  fill : c.Fill rest s log.disk
  short : ∀ m ∈ c.all, m.envelope.length < 2 ^ 32

/-- The files of the segments have the chapters. The oldest may have been deleted; those from
    the oldest number of the log on are there. -/
structure Log.Backs (log : Log) (s : Shelf) (c : Chapters) (rest : Bytes) : Prop where
  registry : log.registry = Workbench.registry
  max : log.group.maxIndex = s.last
  short : ∀ m ∈ c.all, m.envelope.length < 2 ^ 32
  length_segments : c.segments.length = s.tails.length + 1
  file_of_segment : ∀ k ms, c.segments[k]? = some ms →
    ∃ f, s.files[k]? = some f ∧ log.disk.content f = frames ms ++ s.restAt rest k
  resolve_segment : ∀ k f, log.group.minIndex ≤ s.first + k → s.files[k]? = some f →
    ∃ p, log.disk.resolve (log.group.segmentRoute (s.first + k)) = .ok (p, .file f)

/-- Nothing is in the files of the log but the chapters. -/
abbrev Log.Shows (log : Log) (s : Shelf) (id : FileId) (c : Chapters) : Prop :=
  log.Holds s id c []

@[simp] theorem Shelf.restAt_nil (s : Shelf) (k : Nat) : s.restAt [] k = [] := ite_self _

/-- Each segment has a file. -/
theorem Chapters.Fill.file_of_segment {c : Chapters} {rest : Bytes} {s : Shelf} {d : Disk}
    (h : c.Fill rest s d) {id : FileId} (hid : s.head = some id) {k : Nat} {ms : List Input}
    (hms : c.segments[k]? = some ms) :
    ∃ f, s.files[k]? = some f ∧ d.content f = frames ms ++ s.restAt rest k := by
  have hk := (List.getElem?_eq_some_iff.1 hms).1
  have htails := h.length_tails
  rw [Chapters.segments, List.length_append, List.length_singleton, ← htails] at hk
  rw [Chapters.segments] at hms
  rw [Shelf.files, hid, Option.toList_some]
  rcases Nat.eq_or_lt_of_le (Nat.le_of_lt_succ hk) with rfl | hlt
  · rw [htails, List.getElem?_concat_length] at hms
    cases hms
    refine ⟨id, List.getElem?_concat_length, ?_⟩
    rw [Shelf.restAt, if_neg (Nat.lt_irrefl _), h.head_content hid]
  · rw [List.getElem?_append_left (htails ▸ hlt)] at hms
    have hget := congrArg (·[k]?) h.tails
    simp only [List.getElem?_map, hms, Option.map_some, Option.map_eq_some_iff] at hget
    obtain ⟨f, hf, hcontent⟩ := hget
    refine ⟨f, by rw [List.getElem?_append_left hlt, hf], ?_⟩
    rw [Shelf.restAt, if_pos hlt, List.append_nil, hcontent]

namespace Log.Holds

variable {log : Log} {s : Shelf} {id : FileId} {c : Chapters} {rest : Bytes}
variable (h : log.Holds s id c rest)
include h

theorem length_segments : c.segments.length = s.tails.length + 1 := by
  simp [Chapters.segments, h.fill.length_tails]

theorem file_of_segment {k : Nat} {ms : List Input} (hms : c.segments[k]? = some ms) :
    ∃ f, s.files[k]? = some f ∧ log.disk.content f = frames ms ++ s.restAt rest k :=
  h.fill.file_of_segment h.opened.shelf hms

theorem backs : log.Backs s c rest where
  registry := h.registry
  max := h.opened.max
  short := h.short
  length_segments := h.length_segments
  file_of_segment _ _ hms := h.file_of_segment hms
  resolve_segment _ _ _ hf := h.opened.resolve_segment hf

end Log.Holds

namespace Log.Backs

variable {log : Log} {s : Shelf} {c : Chapters} {rest : Bytes}
variable (h : log.Backs s c rest)
include h

theorem content {k : Nat} {f : FileId} {ms : List Input} (hf : s.files[k]? = some f)
    (hms : c.segments[k]? = some ms) : log.disk.content f = frames ms ++ s.restAt rest k := by
  obtain ⟨f', hf', hcontent⟩ := h.file_of_segment k ms hms
  cases hf.symm.trans hf'
  exact hcontent

theorem decode (m : Input) : log.registry.decode m.envelope = .ok m :=
  h.registry ▸ Registry.decode_inputs m

end Log.Backs

namespace Reader

/-- The reader is in the `k`-th segment, between the messages `before` and `after`; the
    file that it has open, if any, is that of the segment. -/
structure Stands (r : Reader) (log : Log) (s : Shelf) (c : Chapters) (k : Nat)
    (before after : List Input) : Prop where
  index : r.index = s.first + k
  messages : c.segments[k]? = some (before ++ after)
  offset : r.offset = (frames before).length
  segment : ∀ cur path, r.segment = some (cur, path) →
    ∃ f, s.files[k]? = some f ∧ cur.node = .file f ∧ cur.Agrees (log.disk.content f) ∧
      cur.position = r.offset

/-- The segment of the reader is open, or has not been deleted. -/
def Opens (r : Reader) (log : Log) : Prop := r.segment = none → log.group.minIndex ≤ r.index

theorem opens_of_some {r : Reader} {log : Log} {seg : Cursor × String}
    (hseg : r.segment = some seg) : r.Opens log := by
  intro hnone
  rw [hseg] at hnone
  cases hnone

/-- Nor has the next one been deleted, if no message is ahead in this one. -/
structure Served (r : Reader) (log : Log) (after : List Input) : Prop where
  opens : r.Opens log
  next : after = [] → log.group.minIndex ≤ r.index + 1

namespace Stands

variable {r : Reader} {log : Log} {s : Shelf} {id : FileId} {c : Chapters} {k : Nat}
  {before after : List Input} {m : Input} {rest : Bytes}
variable (h : r.Stands log s c k before after) (hlog : log.Backs s c rest)
include h

theorem at_position : c.At s.first r.position k before after := ⟨h.index, h.messages, h.offset⟩

theorem served (hlog : log.Holds s id c rest) : r.Served log after := by
  have hmin : log.group.minIndex ≤ r.index := by
    rw [h.index, hlog.opened.min]
    exact Nat.le_add_right _ _
  exact ⟨fun _ => hmin, fun _ => Nat.le_succ_of_le hmin⟩

include hlog

theorem le_tails : k ≤ s.tails.length := by
  have hk := (List.getElem?_eq_some_iff.1 h.messages).1
  rw [hlog.length_segments] at hk
  omega

theorem lt_maxIndex : r.index < log.group.maxIndex ↔ k < s.tails.length := by
  rw [h.index, hlog.max, Shelf.last]
  omega

/-- The segment that the reader has open, or opens now, is at the messages ahead. -/
theorem currentSegment (hopens : r.Opens log) :
    ∃ cur path f, r.currentSegment log.disk log.group = .ok (cur, path) ∧
      s.files[k]? = some f ∧ cur.node = .file f ∧
        cur.Gives (log.disk.content f) (frames after ++ s.restAt rest k) := by
  obtain ⟨f, hf, hcontent⟩ := hlog.file_of_segment k _ h.messages
  have hgives : ∀ cur : Cursor, cur.Agrees (log.disk.content f) → cur.position = r.offset →
      cur.Gives (log.disk.content f) (frames after ++ s.restAt rest k) := by
    intro cur hagrees hpos
    rw [hcontent, frames_append, List.append_assoc] at hagrees ⊢
    rw [h.offset] at hpos
    exact ⟨hagrees, by rw [hpos, List.length_append]; omega, by rw [hpos, List.drop_left]⟩
  -- the segment is opened at the offset, or was open and is read on from there
  cases hseg : r.segment with
  | none =>
    obtain ⟨p, hp⟩ := hlog.resolve_segment k f (h.index ▸ hopens hseg) hf
    rw [← h.index] at hp
    refine ⟨.atPosition (.file f) r.offset, log.group.segmentText r.index, f, ?_, hf, rfl,
      hgives _ (Cursor.agrees_atPosition _ _ _) rfl⟩
    simp only [Reader.currentSegment, hseg, openSegment, hp, Except.map]
  | some seg =>
    obtain ⟨cur, path⟩ := seg
    obtain ⟨f', hf', hnode, hagrees, hpos⟩ := h.segment cur path hseg
    cases hf.symm.trans hf'
    exact ⟨cur, path, f, by simp only [Reader.currentSegment, hseg], hf, hnode,
      hgives cur hagrees hpos⟩

omit h hlog in
/-- Where a cursor is that gives the messages ahead. -/
theorem position_of_gives {content : Bytes} {cur : Cursor}
    (hcontent : content = frames (before ++ after) ++ rest)
    (hgives : cur.Gives content (frames after ++ rest)) :
    cur.position = (frames before).length := by
  obtain ⟨_, hle, hdrop⟩ := hgives
  have hlen := congrArg List.length hdrop
  rw [List.length_drop, List.length_append] at hlen
  rw [hcontent, frames_append, List.length_append, List.length_append] at hlen hle
  omega

end Stands

variable {r : Reader} {log : Log} {s : Shelf} {id : FileId} {c : Chapters} {k : Nat}
  {before after ms : List Input} {m : Input} {rest : Bytes}

/-- The message ahead is read, if the reader accepts its length. -/
theorem Stands.read_message (h : r.Stands log s c k before (m :: after))
    (hlog : log.Backs s c rest) (hopens : r.Opens log)
    (hm : m.envelope.length ≤ r.maxRecordSize) :
    ∃ r', log.read r = (.ok (some m), r') ∧ r'.Stands log s c k (before ++ [m]) after ∧
      r'.maxRecordSize = r.maxRecordSize := by
  have hshort := hlog.short m
    (Chapters.mem_all h.messages (List.mem_append_right _ List.mem_cons_self))
  obtain ⟨cur, path, f, hcur, hf, hnode, hgives⟩ := h.currentSegment hlog hopens
  obtain ⟨cur', hread, hnode', hgives'⟩ := readRecord_of_gives hnode hgives r.maxRecordSize
  have hmessages : c.segments[k]? = some (before ++ [m] ++ after) := by
    rw [h.messages, List.append_assoc, List.singleton_append]
  have hcontent := hlog.content hf hmessages
  rw [frames_cons, List.append_assoc, Record.read_encode ⟨hm, hshort⟩] at hread hgives'
  refine ⟨{ r with
    offset := r.offset + (Record.headerLength + m.envelope.length)
    segment := some (cur', path) }, ?_, ⟨h.index, hmessages, ?_, ?_⟩, rfl⟩
  · rw [Log.read, Reader.read]
    simp only [hcur, hread, hlog.decode]
  · rw [h.offset, frames_append, List.length_append, frames_singleton, Record.length_encode]
  · rintro _ _ ⟨⟩
    refine ⟨f, hf, hnode', hgives'.1, ?_⟩
    rw [position_of_gives hcontent hgives', h.offset, frames_append, List.length_append,
      frames_singleton, Record.length_encode]

/-- A message that is longer than the reader accepts stops it. -/
theorem Stands.read_long (h : r.Stands log s c k before (m :: after))
    (hlog : log.Backs s c rest) (hopens : r.Opens log)
    (hm : r.maxRecordSize < m.envelope.length) : ∃ e r', log.read r = (.error e, r') := by
  have hshort := hlog.short m
    (Chapters.mem_all h.messages (List.mem_append_right _ List.mem_cons_self))
  obtain ⟨cur, path, f, hcur, hf, hnode, hgives⟩ := h.currentSegment hlog hopens
  obtain ⟨cur', hread, -, -⟩ := readRecord_of_gives hnode hgives r.maxRecordSize
  rw [frames_cons, List.append_assoc, Record.read_encode_of_long hshort hm] at hread
  refine ⟨.corrupt path r.offset (.record (.tooLong m.envelope.length r.maxRecordSize)),
    { r with segment := some (cur', path) }, ?_⟩
  rw [Log.read, Reader.read]
  simp only [hcur, hread]

/-- With nothing ahead in the head but the beginning of a record, the reader is at the end,
    and stays there. -/
theorem Stands.read_head (h : r.Stands log s c k before []) (hlog : log.Backs s c rest)
    (hopens : r.Opens log) (hrest : Record.Torn r.maxRecordSize rest) (hk : k = s.tails.length) :
    ∃ r', log.read r = (.ok none, r') ∧ r'.Stands log s c k before [] ∧
      r'.maxRecordSize = r.maxRecordSize ∧ r'.position = r.position := by
  obtain ⟨cur, path, f, hcur, hf, hnode, hgives⟩ := h.currentSegment hlog hopens
  obtain ⟨cur', hread, hnode', -⟩ := readRecord_of_gives hnode hgives r.maxRecordSize
  have hlt : ¬r.index < log.group.maxIndex := by
    rw [h.lt_maxIndex hlog, hk]
    exact Nat.lt_irrefl _
  rw [frames_nil, List.nil_append, Shelf.restAt, if_neg (hk ▸ Nat.lt_irrefl _)] at hread
  refine ⟨{ r with segment := some (cur'.seek r.offset, path) }, ?_,
    ⟨h.index, h.messages, h.offset, ?_⟩, rfl, rfl⟩
  · rw [Log.read, Reader.read]
    obtain ⟨e, n, he, hn, rfl⟩ := hrest
    rw [Record.read_take_encode he hn] at hread
    by_cases h0 : n = 0
    · simp only [hcur, hread, if_pos h0, if_neg hlt]
    · simp only [hcur, hread, if_neg h0, if_neg hlt]
  · rintro _ _ ⟨⟩
    exact ⟨f, hf, hnode', Cursor.agrees_atPosition _ _ _, rfl⟩

/-- With nothing ahead in a tail, the reader goes on to the next segment. -/
theorem Stands.read_tail (h : r.Stands log s c k before []) (hlog : log.Backs s c rest)
    (hopens : r.Opens log) (hk : k < s.tails.length) :
    ∃ r₁ ms, log.read r = log.read r₁ ∧ c.segments[k + 1]? = some ms ∧
      r₁.Stands log s c (k + 1) [] ms ∧ r₁.segment = none ∧
      r₁.maxRecordSize = r.maxRecordSize := by
  obtain ⟨cur, path, f, hcur, hf, hnode, hgives⟩ := h.currentSegment hlog hopens
  obtain ⟨cur', hread, -, -⟩ := readRecord_of_gives hnode hgives r.maxRecordSize
  have hnext : k + 1 < c.segments.length := by
    rw [hlog.length_segments]
    omega
  rw [frames_nil, List.nil_append, Shelf.restAt, if_pos hk] at hread
  refine ⟨{ r with index := r.index + 1, offset := 0, segment := none }, _, ?_,
    List.getElem?_eq_getElem hnext, ⟨?_, List.getElem?_eq_getElem hnext, rfl, ?_⟩, rfl, rfl⟩
  · rw [Log.read, Reader.read]
    simp only [hcur, hread, Record.read_nil, if_pos ((h.lt_maxIndex hlog).2 hk)]
    rfl
  · rw [h.index, Nat.add_assoc]
  · intro _ _ hseg
    cases hseg

/-- A reader that has come to the end of a segment goes on until there is a message, or the
    head has no more. -/
theorem Stands.skip (h : r.Stands log s c k before after) (hlog : log.Backs s c rest)
    (hserved : r.Served log after) :
    ∃ r' k' before' after', log.read r = log.read r' ∧ r'.maxRecordSize = r.maxRecordSize ∧
      r'.Stands log s c k' before' after' ∧ r'.Opens log ∧
      c.ahead s.first k' before' after' = c.ahead s.first k before after ∧
      (after' = [] → k' = s.tails.length) := by
  -- by induction on the number of segments that are newer
  obtain ⟨n, hn⟩ : ∃ n, n = s.tails.length - k := ⟨_, rfl⟩
  induction n generalizing r k before after with
  | zero =>
    have := h.le_tails hlog
    exact ⟨r, k, before, after, rfl, rfl, h, hserved.opens, rfl, fun _ => by omega⟩
  | succ n ih =>
    cases after with
    | cons m after => exact ⟨r, k, before, m :: after, rfl, rfl, h, hserved.opens, rfl, by simp⟩
    | nil =>
      obtain ⟨r₁, ms₁, hread, hget, h₁, -, hmax⟩ := h.read_tail hlog hserved.opens (by omega)
      have hmin : log.group.minIndex ≤ r₁.index := by
        rw [h₁.index, ← Nat.add_assoc, ← h.index]
        exact hserved.next rfl
      obtain ⟨r', k', before', after', hread', hmax', h', hopens', hahead, hend⟩ :=
        ih h₁ ⟨fun _ => hmin, fun _ => Nat.le_succ_of_le hmin⟩ (by omega)
      exact ⟨r', k', before', after', hread.trans hread', hmax'.trans hmax, h', hopens',
        hahead.trans (Chapters.ahead_nil s.first before hget).symm, hend⟩

/-! ## What is ahead of a reader -/

/-- The messages that a reader has not read yet, in its segment and after that. -/
def Ahead (r : Reader) (log : Log) (s : Shelf) (c : Chapters) (ms : List Input) : Prop :=
  ∃ k before after, r.Stands log s c k before after ∧
    ms = after ++ (c.segments.drop (k + 1)).flatten

theorem Stands.ahead (h : r.Stands log s c k before after) :
    r.Ahead log s c (after ++ (c.segments.drop (k + 1)).flatten) :=
  ⟨k, before, after, h, rfl⟩

/-- If a message is ahead, the reader comes to stand right before it. -/
theorem Stands.skip_cons (h : r.Stands log s c k before after) (hlog : log.Backs s c rest)
    (hserved : r.Served log after)
    (hms : after ++ (c.segments.drop (k + 1)).flatten = m :: ms) :
    ∃ r' k' before' after', log.read r = log.read r' ∧ r'.maxRecordSize = r.maxRecordSize ∧
      r'.Stands log s c k' before' (m :: after') ∧ r'.Opens log ∧
      ms = after' ++ (c.segments.drop (k' + 1)).flatten := by
  obtain ⟨r', k', before', after', hread, hmax, h', hopens', hahead, hend⟩ := h.skip hlog hserved
  have hms' := congrArg (List.map Entry.message) hahead
  rw [Chapters.map_message_ahead, Chapters.map_message_ahead, hms] at hms'
  cases after' with
  | nil =>
    -- behind the head there is no segment that the message could be in
    rw [hend rfl, List.drop_eq_nil_of_le (Nat.le_of_eq hlog.length_segments)] at hms'
    cases hms'
  | cons m' after' =>
    obtain ⟨rfl, rfl⟩ := List.cons.inj hms'
    exact ⟨r', k', before', after', hread, hmax, h', hopens', rfl⟩

/-- The first message ahead is read, wherever it is, if the reader accepts its length. -/
theorem Stands.read_cons (h : r.Stands log s c k before after) (hlog : log.Backs s c rest)
    (hserved : r.Served log after) (hms : after ++ (c.segments.drop (k + 1)).flatten = m :: ms)
    (hm : m.envelope.length ≤ r.maxRecordSize) :
    ∃ r', log.read r = (.ok (some m), r') ∧ r'.Ahead log s c ms ∧
      r'.maxRecordSize = r.maxRecordSize := by
  obtain ⟨r₁, k₁, before₁, after₁, hread, hmax, h₁, hopens₁, rfl⟩ :=
    h.skip_cons hlog hserved hms
  obtain ⟨r', hread', h', hmax'⟩ := h₁.read_message hlog hopens₁ (hmax ▸ hm)
  exact ⟨r', hread.trans hread', h'.ahead, hmax'.trans hmax⟩

/-- Without messages ahead, the reader is at the end. -/
theorem Stands.read_nil (h : r.Stands log s c k before after) (hlog : log.Backs s c [])
    (hserved : r.Served log after) (hms : after ++ (c.segments.drop (k + 1)).flatten = []) :
    ∃ r', log.read r = (.ok none, r') ∧ r'.Ahead log s c [] ∧
      r'.maxRecordSize = r.maxRecordSize := by
  obtain ⟨r₁, k₁, before₁, after₁, hread, hmax, h₁, hopens₁, hahead, hend⟩ :=
    h.skip hlog hserved
  have hms₁ := congrArg (List.map Entry.message) hahead
  rw [Chapters.map_message_ahead, Chapters.map_message_ahead, hms] at hms₁
  obtain ⟨rfl, hrest⟩ := List.append_eq_nil_iff.1 hms₁
  obtain ⟨r', hread', h', hmax', -⟩ :=
    h₁.read_head hlog hopens₁ (Record.torn_nil _) (hend rfl)
  refine ⟨r', hread.trans hread', ?_, hmax'.trans hmax⟩
  rw [← hrest, ← List.nil_append (List.flatten _)]
  exact h'.ahead

theorem Ahead.read_cons (h : r.Ahead log s c (m :: ms)) (hlog : log.Shows s id c)
    (hm : m.envelope.length ≤ r.maxRecordSize) :
    ∃ r', log.read r = (.ok (some m), r') ∧ r'.Ahead log s c ms ∧
      r'.maxRecordSize = r.maxRecordSize := by
  obtain ⟨k, before, after, hstands, hms⟩ := h
  exact hstands.read_cons hlog.backs (hstands.served hlog) hms.symm hm

theorem Ahead.read_long (h : r.Ahead log s c (m :: ms)) (hlog : log.Shows s id c)
    (hm : r.maxRecordSize < m.envelope.length) : ∃ e r', log.read r = (.error e, r') := by
  obtain ⟨k, before, after, hstands, hms⟩ := h
  obtain ⟨r₁, k₁, before₁, after₁, hread, hmax, h₁, hopens₁, -⟩ :=
    hstands.skip_cons hlog.backs (hstands.served hlog) hms.symm
  obtain ⟨e, r', hread'⟩ := h₁.read_long hlog.backs hopens₁ (hmax ▸ hm)
  exact ⟨e, r', hread.trans hread'⟩

theorem Ahead.read_nil (h : r.Ahead log s c []) (hlog : log.Shows s id c) :
    ∃ r', log.read r = (.ok none, r') ∧ r'.Ahead log s c [] ∧
      r'.maxRecordSize = r.maxRecordSize := by
  obtain ⟨k, before, after, hstands, hms⟩ := h
  exact hstands.read_nil hlog.backs (hstands.served hlog) hms.symm

/-- Reading with the reader again and again gives some messages, and then the end. -/
inductive Yields (log : Log) : Reader → List Input → Prop
  | done {r r' : Reader} : log.read r = (.ok none, r') → Yields log r []
  | more {r r' : Reader} {m : Input} {ms : List Input} :
    log.read r = (.ok (some m), r') → Yields log r' ms → Yields log r (m :: ms)

/-- There is only one thing that a reader yields. -/
theorem Yields.unique {ms' : List Input} (h : Yields log r ms) (h' : Yields log r ms') :
    ms = ms' := by
  induction h generalizing ms' with
  | done hread =>
    cases h' with
    | done => rfl
    | more hread' => rw [hread] at hread'; cases hread'
  | more hread _ ih =>
    cases h' with
    | done hread' => rw [hread] at hread'; cases hread'
    | more hread' h' =>
      rw [hread] at hread'
      cases hread'
      rw [ih h']

/-- A reader yields what is ahead of it, if it accepts the length of all of it. -/
theorem Ahead.yields (h : r.Ahead log s c ms) (hlog : log.Shows s id c)
    (hms : ∀ m ∈ ms, m.envelope.length ≤ r.maxRecordSize) : Yields log r ms := by
  induction ms generalizing r with
  | nil =>
    obtain ⟨r', hread, -⟩ := h.read_nil hlog
    exact .done hread
  | cons m ms ih =>
    obtain ⟨r', hread, h', hmax⟩ := h.read_cons hlog (hms m List.mem_cons_self)
    exact .more hread (ih h' fun m' hm' => hmax ▸ hms m' (List.mem_cons_of_mem _ hm'))

/-- What it yields is all that is ahead, none of which is too long. -/
theorem Ahead.eq_of_yields {L : List Input} (h : r.Ahead log s c ms) (hlog : log.Shows s id c)
    (hL : Yields log r L) : L = ms ∧ ∀ m ∈ ms, m.envelope.length ≤ r.maxRecordSize := by
  induction ms generalizing r L with
  | nil =>
    obtain ⟨r', hread, -⟩ := h.read_nil hlog
    exact ⟨hL.unique (.done hread), by simp⟩
  | cons m ms ih =>
    by_cases hm : m.envelope.length ≤ r.maxRecordSize
    · obtain ⟨r', hread, h', hmax⟩ := h.read_cons hlog hm
      cases hL with
      | done hread' => rw [hread] at hread'; cases hread'
      | more hread' hL =>
        rw [hread] at hread'
        cases hread'
        obtain ⟨rfl, hms⟩ := ih h' hL
        rw [hmax] at hms
        exact ⟨rfl, List.forall_mem_cons.2 ⟨hm, hms⟩⟩
    · obtain ⟨e, r', hread⟩ := h.read_long hlog (Nat.not_le.1 hm)
      cases hL with
      | done hread' => rw [hread] at hread'; cases hread'
      | more hread' => rw [hread] at hread'; cases hread'

/-- A reader at the beginning of a segment. -/
theorem stands_atPosition (hlog : log.Holds s id c rest)
    (hms : c.segments[k]? = some (before ++ after)) :
    (atPosition log.group (log.group.minIndex + k) (frames before).length).Stands
      log s c k before after :=
  ⟨by rw [← hlog.opened.min]; rfl, hms, rfl, fun _ _ hseg => by cases hseg⟩

/-- A new reader has all messages ahead. -/
theorem newReader_ahead (hlog : log.Shows s id c) :
    ∃ r, log.newReader = .ok r ∧ r.Ahead log s c c.all ∧
      r.maxRecordSize = log.group.config.maxRecordSize := by
  have hopen : log.group.isClosed = false := hlog.opened.isClosed
  refine ⟨.atPosition log.group log.group.minIndex 0, by simp [Log.newReader, hopen], ?_, rfl⟩
  have hpos : 0 < c.segments.length := by
    rw [hlog.length_segments]
    omega
  obtain ⟨ms, rest, hseg⟩ := List.exists_cons_of_length_pos hpos
  have hfirst : c.segments[0]? = some ([] ++ ms) := by rw [hseg]; rfl
  have h := (stands_atPosition hlog hfirst).ahead
  rw [hseg, List.drop_succ_cons, List.drop_zero, ← List.flatten_cons, ← hseg,
    c.flatten_segments] at h
  exact h

end Reader

end ConsensusCore
