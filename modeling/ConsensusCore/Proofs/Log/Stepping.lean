import ConsensusCore.Proofs.Log.Reading

/-!
# What a read comes to

A reader has two copies of its place: its offset, and the cursor of the segment that it has
open. It is *in step* if they agree (`Reader.InStep`). What it reads next is then what the
bytes of its segment from its offset on begin with, whatever they are, and this decides
what the read comes to and where it leaves the reader (`At.read_message` and those after it).

A reader is left in step unless the bytes that it has looked at are no record: the cursor
is behind them then, and the offset is not.
-/

namespace ConsensusCore

/-! ## Bytes -/

/-- Reading has taken so many bytes for what it comes to. -/
def RecordRead.Takes (n : Nat) : RecordRead → Prop
  | .record e => n = Record.headerLength + e.length
  | .eof => n = 0
  | .torn read => n = read ∧ 0 < n
  | .corrupt _ => 0 < n

theorem Record.read_takes (max : Nat) (bs : Bytes) : ∃ n, n ≤ bs.length ∧
    (read max bs).2 = bs.drop n ∧ (read max bs).1.Takes n := by
  simp only [read, readFrom]
  split
  · next hempty =>
    have hnil : bs = [] := by simpa [headerLength] using hempty
    subst hnil
    exact ⟨0, Nat.le_refl 0, rfl, rfl⟩
  next hempty =>
  have hpos : 0 < bs.length := by
    rw [List.length_pos_iff]
    rintro rfl
    exact hempty rfl
  split
  · next hshort =>
    rw [List.length_take] at hshort
    refine ⟨bs.length, Nat.le_refl _, ?_, ?_, hpos⟩
    · rw [List.drop_length, List.drop_eq_nil_of_le (by omega)]
    · rw [List.length_take]
      omega
  next hheader =>
  rw [List.length_take] at hheader
  have hlength : headerLength ≤ bs.length := by omega
  split
  · exact ⟨headerLength, hlength, rfl, show 0 < headerLength by decide⟩
  split
  · next hcut =>
    rw [List.length_take, List.length_drop] at hcut
    refine ⟨bs.length, Nat.le_refl _, ?_, ?_, hpos⟩
    · have hnil : ∀ n, bs.length ≤ headerLength + n → (bs.drop headerLength).drop n = [] :=
        fun n hn => List.drop_eq_nil_of_le (by rw [List.length_drop]; omega)
      exact (hnil _ (by omega)).trans List.drop_length.symm
    · rw [List.length_take, List.length_drop]
      omega
  next hwhole =>
  rw [List.length_take, List.length_drop] at hwhole
  -- the record is there as a whole, whether it can be trusted or not
  refine ⟨headerLength + LittleEndian.ofBytes ((bs.take headerLength).drop 4), by omega, ?_, ?_⟩
  · split
    · exact List.drop_drop
    · exact List.drop_drop
  · split
    · rw [RecordRead.Takes, List.length_take, List.length_drop]
      omega
    · exact Nat.lt_of_lt_of_le (show 0 < headerLength by decide) (Nat.le_add_right _ _)

namespace Reader

/-- A record is read at a cursor off the bytes at its position, and it moves past what has
    been taken of them. -/
theorem readRecord_of_agrees {d : Disk} {f : FileId} {cur : Cursor}
    (hnode : cur.node = .file f) (h : cur.Agrees (d.content f)) (max : Nat) :
    ∃ n cur', readRecord d max cur =
        .ok ((Record.read max ((d.content f).drop cur.position)).1, cur') ∧
      (Record.read max ((d.content f).drop cur.position)).1.Takes n ∧
      cur'.node = .file f ∧ cur'.Agrees (d.content f) ∧ cur'.position = cur.position + n := by
  obtain ⟨bs, hbs⟩ : ∃ bs, bs = (d.content f).drop cur.position := ⟨_, rfl⟩
  rw [← hbs]
  -- the position and what is left of the bytes always come to the same
  obtain ⟨hout, hnode', hagrees, hdrop, hsum⟩ := Record.readFrom_rel
    (Cursor.read (d.content f)) (fun n bs => (bs.take n, bs.drop n))
    (fun c rest => c.node = .file f ∧ c.Agrees (d.content f) ∧
      rest = (d.content f).drop c.position ∧
      c.position + rest.length = cur.position + bs.length) max
    (fun n c rest ⟨hnode, hagrees, hrest, hsum⟩ => by
      obtain ⟨hbytes, hagrees', hpos⟩ := hagrees.read n
      rw [← hrest] at hbytes
      rw [hbytes, List.length_take] at hpos
      refine ⟨hbytes, (c.node_read _ n).trans hnode, hagrees', ?_, ?_⟩
      · rw [hpos, ← List.drop_drop, ← hrest]
        by_cases hn : n ≤ rest.length
        · rw [Nat.min_eq_left hn]
        · rw [Nat.min_eq_right (by omega), List.drop_length, List.drop_eq_nil_of_le (by omega)]
      · rw [hpos, List.length_drop]
        omega)
    ⟨hnode, h, hbs, rfl⟩
  obtain ⟨n, hn, hrest, htakes⟩ := Record.read_takes max bs
  refine ⟨n, _, ?_, htakes, hnode', hagrees, ?_⟩
  · simp only [readRecord, hnode]
    exact congrArg (fun out => Except.ok (out, _)) hout
  · change _ + (Record.read max bs).2.length = _ at hsum
    rw [hrest, List.length_drop] at hsum
    omega

/-! ## Places -/

/-- The segment `i` is open, and the next byte is read from its offset `o`. -/
structure OpenAt (log : Log) (i o : Nat) (seg : Cursor × String) : Prop where
  path : seg.2 = log.group.segmentText i
  position : seg.1.position = o
  node : ∃ p, log.disk.resolve (log.group.segmentRoute i) = .ok (p, seg.1.node)
  agrees : ∀ f, seg.1.node = .file f → seg.1.Agrees (log.disk.content f)

/-- The reader is in step at a place: the segment that it has open, if any, is read from
    there on. -/
structure At (r : Reader) (log : Log) (max i o : Nat) : Prop where
  max : r.maxRecordSize = max
  index : r.index = i
  offset : r.offset = o
  segment : ∀ seg, r.segment = some seg → OpenAt log i o seg

/-- The reader has the segment open behind the place that it should be at. -/
structure Past (r : Reader) (log : Log) (max i o : Nat) : Prop where
  max : r.maxRecordSize = max
  index : r.index = i
  offset : r.offset = o
  segment : ∃ seg n, r.segment = some seg ∧ 0 < n ∧ OpenAt log i (o + n) seg

/-- The reader is in step at its position. -/
def InStep (r : Reader) (log : Log) : Prop := r.At log r.maxRecordSize r.index r.offset

variable {r : Reader} {log : Log} {max i o : Nat}

theorem at_atPosition (log : Log) (i o : Nat) :
    (atPosition log.group i o).At log log.group.config.maxRecordSize i o :=
  ⟨rfl, rfl, rfl, fun _ hseg => by cases hseg⟩

theorem At.inStep (h : r.At log max i o) : r.InStep log := by
  rw [InStep, h.max, h.index, h.offset]
  exact h

theorem Past.not_inStep (h : r.Past log max i o) : ¬r.InStep log := by
  intro hin
  obtain ⟨seg, n, hseg, hn, hpast⟩ := h.segment
  have hposition := (hin.segment seg hseg).position
  rw [hpast.position, h.offset] at hposition
  omega

namespace At

variable (h : r.At log max i o)
include h

/-- The segment is read as it would be if it was opened now. -/
theorem currentSegment {p : Path} {node : Node}
    (hnode : log.disk.resolve (log.group.segmentRoute i) = .ok (p, node)) :
    ∃ cur, r.currentSegment log.disk log.group = .ok (cur, log.group.segmentText i) ∧
      cur.node = node ∧ OpenAt log i o (cur, log.group.segmentText i) := by
  cases hseg : r.segment with
  | none =>
    refine ⟨.atPosition node o, ?_, rfl, rfl, rfl, ⟨p, hnode⟩, fun _ _ => ?_⟩
    · simp only [Reader.currentSegment, hseg, openSegment, h.index, h.offset, hnode, Except.map]
    · exact Cursor.agrees_atPosition _ _ _
  | some seg =>
    obtain ⟨cur, path⟩ := seg
    have hopen := h.segment _ hseg
    obtain ⟨p', hnode'⟩ := hopen.node
    cases hnode.symm.trans hnode'
    obtain rfl : path = _ := hopen.path
    exact ⟨cur, by simp only [Reader.currentSegment, hseg], rfl, hopen⟩

variable {f : FileId} (hfile : log.disk.fileAt (log.group.segmentRoute i) = .ok f)
include hfile

/-- What is read at the place is what the bytes from there on begin with. -/
theorem readRecord {out : RecordRead}
    (hout : (Record.read max ((log.disk.content f).drop o)).1 = out) :
    ∃ cur n cur', r.currentSegment log.disk log.group = .ok (cur, log.group.segmentText i) ∧
      Reader.readRecord log.disk r.maxRecordSize cur = .ok (out, cur') ∧ out.Takes n ∧
      cur'.node = .file f ∧ OpenAt log i (o + n) (cur', log.group.segmentText i) := by
  obtain ⟨p, hp⟩ := Disk.exists_of_fileAt hfile
  obtain ⟨cur, hcur, hnode, hopen⟩ := h.currentSegment hp
  obtain ⟨n, cur', hread, htakes, hnode', hagrees, hposition⟩ :=
    readRecord_of_agrees hnode (hopen.agrees f hnode) r.maxRecordSize
  rw [hopen.position, h.max, hout] at htakes
  rw [hopen.position] at hposition
  refine ⟨cur, n, cur', hcur, ?_, htakes, hnode', rfl, hposition, ⟨p, hnode' ▸ hp⟩,
    fun f' hf' => ?_⟩
  · rw [hread, hopen.position, h.max, hout]
  · cases hnode'.symm.trans hf'
    exact hagrees

omit hfile in
/-- With the segment open behind the place, and the offset there too, the reader is in step. -/
theorem pass {n : Nat} {seg : Cursor × String} (hopen : OpenAt log i (o + n) seg) :
    At { r with offset := r.offset + n, segment := some seg } log max i (o + n) := by
  refine ⟨h.max, h.index, by rw [h.offset], ?_⟩
  rintro _ ⟨⟩
  exact hopen

omit hfile in
/-- With the offset where it was, it is not. -/
theorem stay {n : Nat} {seg : Cursor × String} (hn : 0 < n) (hopen : OpenAt log i (o + n) seg) :
    Past { r with segment := some seg } log max i o :=
  ⟨h.max, h.index, h.offset, seg, n, rfl, hn, hopen⟩

/-- A record whose envelope decodes is returned. -/
theorem read_message {e : Bytes} {m : Input}
    (hout : (Record.read max ((log.disk.content f).drop o)).1 = .record e)
    (hdecode : log.registry.decode e = .ok m) :
    ∃ r', log.read r = (.ok (some m), r') ∧
      r'.At log max i (o + (Record.headerLength + e.length)) := by
  obtain ⟨cur, n, cur', hcur, hread, rfl, -, hopen⟩ := h.readRecord hfile hout
  refine ⟨_, ?_, h.pass hopen⟩
  rw [Log.read, Reader.read]
  simp only [hcur, hread, hdecode]

/-- A record whose envelope does not decode is passed all the same. -/
theorem read_undecodable {e : Bytes} {err : CodecError}
    (hout : (Record.read max ((log.disk.content f).drop o)).1 = .record e)
    (hdecode : log.registry.decode e = .error err) :
    ∃ r', log.read r = (.error (.corrupt (log.group.segmentText i) o (.envelope err)), r') ∧
      r'.At log max i (o + (Record.headerLength + e.length)) := by
  obtain ⟨cur, n, cur', hcur, hread, rfl, -, hopen⟩ := h.readRecord hfile hout
  refine ⟨_, ?_, h.pass hopen⟩
  rw [Log.read, Reader.read]
  simp only [hcur, hread, hdecode, h.offset]

/-- At bytes that cannot be trusted, the reader gets out of step. -/
theorem read_corrupt {fault : RecordFault}
    (hout : (Record.read max ((log.disk.content f).drop o)).1 = .corrupt fault) :
    ∃ r', log.read r = (.error (.corrupt (log.group.segmentText i) o (.record fault)), r') ∧
      r'.Past log max i o := by
  obtain ⟨cur, n, cur', hcur, hread, hn, -, hopen⟩ := h.readRecord hfile hout
  refine ⟨_, ?_, h.stay hn hopen⟩
  rw [Log.read, Reader.read]
  simp only [hcur, hread, h.offset]

/-- So it does at a record that a sealed segment has only the beginning of. -/
theorem read_torn {k : Nat} (hsealed : i < log.group.maxIndex)
    (hout : (Record.read max ((log.disk.content f).drop o)).1 = .torn k) :
    ∃ r', log.read r = (.error (.corrupt (log.group.segmentText i) o (.torn k)), r') ∧
      r'.Past log max i o := by
  obtain ⟨cur, n, cur', hcur, hread, ⟨-, hn⟩, -, hopen⟩ := h.readRecord hfile hout
  refine ⟨_, ?_, h.stay hn hopen⟩
  rw [← h.index] at hsealed
  rw [Log.read, Reader.read]
  simp only [hcur, hread, h.offset, if_pos hsealed]

/-- The end of a sealed segment leads to the next one. -/
theorem read_next (hsealed : i < log.group.maxIndex)
    (hout : (Record.read max ((log.disk.content f).drop o)).1 = .eof) :
    ∃ r', log.read r = log.read r' ∧ r'.At log max (i + 1) 0 := by
  obtain ⟨cur, n, cur', hcur, hread, -, -, -⟩ := h.readRecord hfile hout
  refine ⟨{ r with index := r.index + 1, offset := 0, segment := none }, ?_, h.max, ?_, rfl,
    fun _ hseg => by cases hseg⟩
  · rw [← h.index] at hsealed
    rw [Log.read, Reader.read]
    simp only [hcur, hread, if_pos hsealed]
    rfl
  · rw [h.index]

/-- At the end of the head, or before the beginning of a record there, the reader waits. -/
theorem read_wait (hhead : log.group.maxIndex ≤ i)
    (hout : (Record.read max ((log.disk.content f).drop o)).1 = .eof ∨
      ∃ k, (Record.read max ((log.disk.content f).drop o)).1 = .torn k) :
    ∃ r', log.read r = (.ok none, r') ∧ r'.At log max i o := by
  obtain ⟨p, hp⟩ := Disk.exists_of_fileAt hfile
  rw [← h.index] at hhead
  have hseek : ∀ cur' : Cursor, cur'.node = .file f →
      At { r with segment := some (cur'.seek r.offset, log.group.segmentText i) } log max i o := by
    intro cur' hnode
    refine ⟨h.max, h.index, h.offset, ?_⟩
    rintro _ ⟨⟩
    exact ⟨rfl, h.offset, ⟨p, hnode ▸ hp⟩, fun _ _ => Cursor.agrees_atPosition _ _ _⟩
  rcases hout with hout | ⟨k, hout⟩
  · obtain ⟨cur, n, cur', hcur, hread, -, hnode, -⟩ := h.readRecord hfile hout
    refine ⟨_, ?_, hseek cur' hnode⟩
    rw [Log.read, Reader.read]
    simp only [hcur, hread, if_neg (Nat.not_lt.2 hhead)]
  · obtain ⟨cur, n, cur', hcur, hread, -, hnode, -⟩ := h.readRecord hfile hout
    refine ⟨_, ?_, hseek cur' hnode⟩
    rw [Log.read, Reader.read]
    simp only [hcur, hread, if_neg (Nat.not_lt.2 hhead)]

omit hfile in
/-- A segment that cannot be read leaves the reader where it is. -/
theorem read_unreadable {e : DiskError}
    (hnone : log.disk.fileAt (log.group.segmentRoute i) = .error e) :
    ∃ r', log.read r = (.error (.disk e), r') ∧ r'.At log max i o := by
  rw [Disk.fileAt] at hnone
  split at hnone
  · cases hnone
  · next p hp =>
    cases hnone
    obtain ⟨cur, hcur, hnode, hopen⟩ := h.currentSegment hp
    refine ⟨{ r with segment := some (cur, log.group.segmentText i) }, ?_, h.max, h.index,
      h.offset, ?_⟩
    · rw [Log.read, Reader.read]
      simp only [hcur, Reader.readRecord, hnode]
    · rintro _ ⟨⟩
      exact hopen
  · next e' hp =>
    cases hnone
    -- nothing is open, since nothing can be opened
    have hseg : r.segment = none := by
      refine Option.eq_none_iff_forall_not_mem.2 fun seg hseg => ?_
      obtain ⟨p, hp'⟩ := (h.segment seg hseg).node
      rw [hp] at hp'
      cases hp'
    refine ⟨r, ?_, h⟩
    rw [Log.read, Reader.read]
    simp only [Reader.currentSegment, hseg, openSegment, h.index, hp, Except.map]

end At

end Reader

end ConsensusCore
