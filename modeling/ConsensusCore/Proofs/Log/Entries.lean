import ConsensusCore.Log.Workbench
import ConsensusCore.Proofs.Log.Chapters

/-!
# The records in a log

What is in a log can be told without any reader: in each of its segments, the records at
the front are complete, and have their places (`Log.entries`). A record of which only the
beginning is there is not one of them.

If the segments have chapters, these are the entries of the chapters, one after the other
(`Chapters.entries`), and from a place between two messages on, those of the messages that
come after it (`Chapters.At.filter_entries`).
-/

namespace ConsensusCore

/-- A complete record in a log: the number of its segment, where it starts in it and how
    long it is, and its message. -/
structure Entry where
  index : Nat
  offset : Nat
  length : Nat
  message : Input

namespace Entry

/-- Where the record starts. -/
def place (e : Entry) : Nat × Nat := (e.index, e.offset)

/-- Where it ends. -/
def stop (e : Entry) : Nat × Nat := (e.index, e.offset + e.length)

/-- Whether the record starts at a place, or after it. -/
def isFrom (p : Nat × Nat) (e : Entry) : Bool :=
  p.1 < e.index || p.1 == e.index && p.2 ≤ e.offset

/-- The records of some envelopes, one after the other in a segment. -/
def list (registry : Registry Input) (index : Nat) : Nat → List Bytes → List Entry
  | _, [] => []
  | offset, bs :: rest =>
    match registry.decode bs with
    | .ok m =>
      ⟨index, offset, Record.headerLength + bs.length, m⟩ ::
        list registry index (offset + (Record.headerLength + bs.length)) rest
    | .error _ => []

end Entry

namespace Log

/-- The envelopes of the complete records in the segment with a number. -/
def envelopesIn (log : Log) (index : Nat) : List Bytes :=
  match log.disk.fileAt (log.group.segmentRoute index) with
  | .ok id => (Record.scan log.group.config.maxRecordSize (log.disk.content id)).1
  | .error _ => []

/-- Where the complete records in a segment end. -/
def endOf (log : Log) (index : Nat) : Nat × Nat :=
  (index, Record.totalLength (log.envelopesIn index))

/-- The complete records in the log, from the oldest segment to the head. -/
def entries (log : Log) : List Entry :=
  (List.range' log.group.minIndex (log.group.maxIndex + 1 - log.group.minIndex)).flatMap
    fun index => Entry.list log.registry index 0 (log.envelopesIn index)

/-- The complete records from a place on. -/
def entriesFrom (log : Log) (p : Nat × Nat) : List Entry := log.entries.filter (Entry.isFrom p)

/-- Where the next record is: the first complete one from a place on, or the one that will
    be written to the head next. -/
def nextPlace (log : Log) (p : Nat × Nat) : Nat × Nat :=
  match log.entriesFrom p with
  | e :: _ => e.place
  | [] => log.endOf log.group.maxIndex

end Log

variable {ms ms' before after : List Input} {m : Input} {e : Entry} {index offset k : Nat}

/-! ## Entries of messages -/

/-- The records of some messages, one after the other in a segment. -/
def placed (index offset : Nat) (ms : List Input) : List Entry :=
  Entry.list Workbench.registry index offset (ms.map Input.envelope)

/-- The record of a message. -/
def Entry.ofMessage (index offset : Nat) (m : Input) : Entry :=
  ⟨index, offset, (Record.encode m.envelope).length, m⟩

@[simp] theorem placed_nil (index offset : Nat) : placed index offset [] = [] := rfl

theorem placed_cons (index offset : Nat) (m : Input) (ms : List Input) :
    placed index offset (m :: ms) =
      .ofMessage index offset m :: placed index (offset + (frames [m]).length) ms := by
  have hdecode : Workbench.registry.decode m.envelope = .ok m := Registry.decode_inputs m
  simp only [placed, List.map_cons, Entry.list, hdecode, Entry.ofMessage, frames_singleton,
    Record.length_encode]

theorem placed_append (index offset : Nat) (ms ms' : List Input) :
    placed index offset (ms ++ ms') =
      placed index offset ms ++ placed index (offset + (frames ms).length) ms' := by
  induction ms generalizing offset with
  | nil => rfl
  | cons m ms ih =>
    rw [List.cons_append, placed_cons, ih, placed_cons, List.cons_append, Nat.add_assoc,
      ← List.length_append, ← frames_append, List.singleton_append]

theorem map_message_placed (index offset : Nat) (ms : List Input) :
    (placed index offset ms).map Entry.message = ms := by
  induction ms generalizing offset with
  | nil => rfl
  | cons m ms ih => rw [placed_cons, List.map_cons, ih]; rfl

/-- The records lie within their bytes. -/
theorem mem_placed (h : e ∈ placed index offset ms) :
    e.index = index ∧ offset ≤ e.offset ∧ e.offset < offset + (frames ms).length := by
  induction ms generalizing offset with
  | nil => cases h
  | cons m ms ih =>
    have hlength : (frames (m :: ms)).length = (frames [m]).length + (frames ms).length := by
      rw [← List.length_append, ← frames_append, List.singleton_append]
    have hpos : 0 < (frames [m]).length := by
      rw [frames_singleton, Record.length_encode, Record.headerLength]
      omega
    rw [placed_cons, List.mem_cons] at h
    rcases h with rfl | h
    · exact ⟨rfl, Nat.le_refl _, show offset < _ by omega⟩
    · obtain ⟨hindex, hle, hlt⟩ := ih h
      omega

/-- The records of some segments, the first of which has the number `index`. -/
def entriesOf (index : Nat) : List (List Input) → List Entry
  | [] => []
  | ms :: rest => placed index 0 ms ++ entriesOf (index + 1) rest

theorem entriesOf_append (index : Nat) (segments segments' : List (List Input)) :
    entriesOf index (segments ++ segments') =
      entriesOf index segments ++ entriesOf (index + segments.length) segments' := by
  induction segments generalizing index with
  | nil => rfl
  | cons ms rest ih =>
    rw [List.cons_append, entriesOf, ih, entriesOf, List.append_assoc, List.length_cons,
      Nat.add_assoc, Nat.add_comm 1]

theorem map_message_entriesOf (index : Nat) (segments : List (List Input)) :
    (entriesOf index segments).map Entry.message = segments.flatten := by
  induction segments generalizing index with
  | nil => rfl
  | cons ms rest ih =>
    rw [entriesOf, List.map_append, map_message_placed, ih, List.flatten_cons]

theorem mem_entriesOf {segments : List (List Input)} (h : e ∈ entriesOf index segments) :
    index ≤ e.index ∧ e.index < index + segments.length := by
  induction segments generalizing index with
  | nil => cases h
  | cons ms rest ih =>
    rw [entriesOf, List.mem_append] at h
    rw [List.length_cons]
    rcases h with h | h
    · have := (mem_placed h).1
      omega
    · have := ih h
      omega

/-! ## Places in chapters -/

namespace Chapters

/-- The records in the chapters; the oldest segment has the number `first`. -/
def entries (c : Chapters) (first : Nat) : List Entry := entriesOf first c.segments

/-- The records of the messages `after`, which are the last in the `k`-th chapter, behind
    `before`, and of all newer chapters. -/
def ahead (c : Chapters) (first k : Nat) (before after : List Input) : List Entry :=
  placed (first + k) (frames before).length after ++
    entriesOf (first + (k + 1)) (c.segments.drop (k + 1))

/-- The place is in the `k`-th chapter, between the messages `before` and `after`. -/
structure At (c : Chapters) (first : Nat) (p : Nat × Nat) (k : Nat)
    (before after : List Input) : Prop where
  index : p.1 = first + k
  messages : c.segments[k]? = some (before ++ after)
  offset : p.2 = (frames before).length

variable {c : Chapters} {first : Nat} {p : Nat × Nat}

theorem map_message_entries (c : Chapters) (first : Nat) :
    (c.entries first).map Entry.message = c.all := by
  rw [entries, map_message_entriesOf, c.flatten_segments]

theorem map_message_ahead (c : Chapters) (first k : Nat) (before after : List Input) :
    (c.ahead first k before after).map Entry.message =
      after ++ (c.segments.drop (k + 1)).flatten := by
  rw [ahead, List.map_append, map_message_placed, map_message_entriesOf]

/-- At the end of a chapter, the messages of the next one are ahead. -/
theorem ahead_nil (first : Nat) (before : List Input) (h : c.segments[k + 1]? = some ms) :
    c.ahead first k before [] = c.ahead first (k + 1) [] ms := by
  obtain ⟨hlt, rfl⟩ := List.getElem?_eq_some_iff.1 h
  rw [ahead, placed_nil, List.nil_append, List.drop_eq_getElem_cons hlt]
  rfl

theorem entries_sealHead (c : Chapters) (first : Nat) :
    c.sealHead.entries first = c.entries first := by
  have hsegments : c.sealHead.segments = c.segments ++ [[]] := rfl
  rw [entries, hsegments, entriesOf_append]
  exact List.append_nil _

/-- What is written is the last record. -/
theorem entries_write (c : Chapters) (first : Nat) (m : Input) :
    (c.write m).entries first = c.entries first ++
      [.ofMessage (first + c.tails.length) (frames c.head).length m] := by
  have hhead : ∀ ms, entriesOf (first + c.tails.length) [ms] =
      placed (first + c.tails.length) 0 ms := fun ms => List.append_nil _
  simp only [entries, segments, write, entriesOf_append, hhead, placed_append, placed_cons,
    placed_nil, Nat.zero_add, List.append_assoc]

namespace At

variable (h : c.At first p k before after)
include h

theorem lt_length : k < c.segments.length := (List.getElem?_eq_some_iff.1 h.messages).1

/-- The records from a place on are those ahead. -/
theorem filter_entries :
    (c.entries first).filter (Entry.isFrom p) = c.ahead first k before after := by
  obtain ⟨hlt, hms⟩ := List.getElem?_eq_some_iff.1 h.messages
  -- the records before the place: those of older chapters, and those of the same one
  have hsplit : c.entries first = (entriesOf first (c.segments.take k) ++
      placed (first + k) 0 before) ++ c.ahead first k before after := by
    have hsegments : c.segments =
        c.segments.take k ++ (before ++ after) :: c.segments.drop (k + 1) := by
      rw [← hms, ← List.drop_eq_getElem_cons hlt, List.take_append_drop]
    rw [entries, hsegments, entriesOf_append, entriesOf, placed_append, ← hsegments, ahead,
      List.length_take, Nat.min_eq_left (Nat.le_of_lt hlt)]
    simp only [Nat.zero_add, List.append_assoc, Nat.add_assoc]
  have hbefore : ∀ e ∈ entriesOf first (c.segments.take k) ++ placed (first + k) 0 before,
      ¬Entry.isFrom p e = true := by
    intro e he
    rw [Entry.isFrom, h.index, h.offset]
    rcases List.mem_append.1 he with he | he
    · have := mem_entriesOf he
      rw [List.length_take] at this
      simp only [Bool.or_eq_true, Bool.and_eq_true, decide_eq_true_eq, beq_iff_eq]
      omega
    · have := mem_placed he
      simp only [Bool.or_eq_true, Bool.and_eq_true, decide_eq_true_eq, beq_iff_eq]
      omega
  have hahead : ∀ e ∈ c.ahead first k before after, Entry.isFrom p e = true := by
    intro e he
    rw [Entry.isFrom, h.index, h.offset]
    rcases List.mem_append.1 he with he | he
    · have := mem_placed he
      simp only [Bool.or_eq_true, Bool.and_eq_true, decide_eq_true_eq, beq_iff_eq]
      omega
    · have := mem_entriesOf he
      simp only [Bool.or_eq_true, Bool.and_eq_true, decide_eq_true_eq, beq_iff_eq]
      omega
  rw [hsplit, List.filter_append, List.filter_eq_nil_iff.2 hbefore, List.nil_append,
    List.filter_eq_self.2 hahead]

/-- A place stays between the same messages when the head is sealed. -/
theorem sealHead : c.sealHead.At first p k before after := by
  have hsegments : c.sealHead.segments = c.segments ++ [[]] := rfl
  refine ⟨h.index, ?_, h.offset⟩
  rw [hsegments, List.getElem?_append_left h.lt_length, h.messages]

/-- What is written comes after the place. -/
theorem write (m : Input) : ∃ after', (c.write m).At first p k before after' := by
  have hk := h.lt_length
  have hmessages := h.messages
  simp only [segments, List.length_append, List.length_singleton] at hk hmessages
  rcases Nat.eq_or_lt_of_le (Nat.le_of_lt_succ hk) with rfl | hlt
  · have hhead : c.head = before ++ after := by simpa using hmessages
    exact ⟨after ++ [m], h.index, by simp [segments, Chapters.write, hhead], h.offset⟩
  · rw [List.getElem?_append_left hlt] at hmessages
    refine ⟨after, h.index, ?_, h.offset⟩
    simp [segments, Chapters.write, List.getElem?_append_left hlt, hmessages]

/-- No place is behind what is written next. -/
theorem isFrom_next (m : Input) :
    (Entry.ofMessage (first + c.tails.length) (frames c.head).length m).isFrom p = true := by
  have hk := h.lt_length
  have hmessages := h.messages
  simp only [segments, List.length_append, List.length_singleton] at hk hmessages
  simp only [Entry.isFrom, Entry.ofMessage, h.index, h.offset, Bool.or_eq_true, Bool.and_eq_true,
    decide_eq_true_eq, beq_iff_eq]
  rcases Nat.eq_or_lt_of_le (Nat.le_of_lt_succ hk) with rfl | hlt
  · -- in the head, what comes before the place is only a part of it
    have hhead : c.head = before ++ after := by simpa using hmessages
    refine .inr ⟨rfl, ?_⟩
    rw [hhead, frames_append, List.length_append]
    omega
  · exact .inl (by omega)

/-- What is written comes last of what is ahead. -/
theorem ahead_write {after' : List Input} {m : Input}
    (h' : (c.write m).At first p k before after') :
    (c.write m).ahead first k before after' = c.ahead first k before after ++
      [.ofMessage (first + c.tails.length) (frames c.head).length m] := by
  rw [← h'.filter_entries, ← h.filter_entries, entries_write, List.filter_append,
    List.filter_cons_of_pos (h.isFrom_next m), List.filter_nil]

end At

end Chapters

end ConsensusCore
