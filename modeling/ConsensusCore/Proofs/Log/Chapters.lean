import ConsensusCore.Proofs.Log.Group
import ConsensusCore.Proofs.Log.Record
import ConsensusCore.Proofs.Message.Envelope

/-!
# Chapters of a log

What is written in a log is a sequence of messages, which its segments divide into
*chapters*, one for each tail and the last for the head. The files of a log that nobody
has damaged contain the records of their chapters one after the other, and the head
possibly a rest of bytes after them (`Chapters.Fill`), if it was cut inside of a record.

Each step of a log does to the chapters what it does to the shelf: it seals the head,
drops the oldest ones, adds a message to the head, or cuts the head, of which the messages
remain that end before the cut (`Chapters.cut`).
-/

namespace ConsensusCore

/-- The records of some messages, one after the other. -/
def frames (ms : List Input) : Bytes := Record.encodeAll (ms.map Input.envelope)

/-- The messages in a log, by the segments that they are in. -/
structure Chapters where
  tails : List (List Input)
  head : List Input
deriving DecidableEq

variable {ms : List Input} {m : Input} {n max : Nat}

/-! ## Records of messages -/

@[simp] theorem frames_nil : frames [] = [] := rfl

@[simp] theorem frames_append (ms ms' : List Input) :
    frames (ms ++ ms') = frames ms ++ frames ms' := by
  simp [frames]

theorem frames_cons (m : Input) (ms : List Input) :
    frames (m :: ms) = Record.encode m.envelope ++ frames ms :=
  rfl

theorem frames_singleton (m : Input) : frames [m] = Record.encode m.envelope := by
  simp [frames_cons]

theorem frames_eq_nil : frames ms = [] ↔ ms = [] := by
  cases ms with
  | nil => simp
  | cons m ms =>
    rw [← List.length_eq_zero_iff, frames_cons, List.length_append, Record.length_encode,
      Record.headerLength]
    simp

/-- Without a rest, there is nothing to repair, whatever readers accept. -/
theorem repaired_frames (h : ∀ m ∈ ms, m.envelope.length < 2 ^ 32) :
    Record.repaired max (frames ms) = frames ms :=
  Record.repaired_of_short (List.forall_mem_map.2 h)

namespace Chapters

/-- The chapters of a log in which nothing has been written. -/
def empty : Chapters := ⟨[], []⟩

/-- All messages, in order. -/
def all (c : Chapters) : List Input := c.tails.flatten ++ c.head

/-- The chapters of all segments, that of the head the last. -/
def segments (c : Chapters) : List (List Input) := c.tails ++ [c.head]

/-- The chapters with a message added. -/
def write (c : Chapters) (m : Input) : Chapters := { c with head := c.head ++ [m] }

/-- The chapters with the head sealed. -/
def sealHead (c : Chapters) : Chapters := ⟨c.tails ++ [c.head], []⟩

/-- The chapters without the oldest ones. -/
def drop (c : Chapters) (k : Nat) : Chapters := { c with tails := c.tails.drop k }

/-- The messages of which the records end within the first `n` bytes. -/
def within : Nat → List Input → List Input
  | _, [] => []
  | n, m :: ms =>
    let length := Record.headerLength + m.envelope.length
    if length ≤ n then m :: within (n - length) ms else []

/-- The chapters with the head cut after `n` bytes. -/
def cut (c : Chapters) (n : Nat) : Chapters := { c with head := within n c.head }

/-- The files of a shelf have the chapters as their contents, and the head a rest after
    them. Without a head, there is no message in it. -/
structure Fill (c : Chapters) (rest : Bytes) (s : Shelf) (d : Disk) : Prop where
  tails : s.tails.map d.content = c.tails.map frames
  head : (s.head.map d.content).getD [] = frames c.head ++ rest

variable {c : Chapters} {s : Shelf} {d d' : Disk} {rest : Bytes} {id new : FileId}

@[simp] theorem drop_zero (c : Chapters) : c.drop 0 = c := rfl

/-- What is left when the oldest chapters are dropped are the last messages. -/
theorem all_drop_suffix (c : Chapters) (k : Nat) : (c.drop k).all <:+ c.all := by
  refine ⟨(c.tails.take k).flatten, ?_⟩
  simp only [all, drop, ← List.append_assoc, ← List.flatten_append, List.take_append_drop]

theorem flatten_segments (c : Chapters) : c.segments.flatten = c.all := by
  simp [segments, all]

theorem mem_all {k : Nat} (hms : c.segments[k]? = some ms) (hm : m ∈ ms) : m ∈ c.all := by
  rw [← c.flatten_segments]
  exact List.mem_flatten.2 ⟨ms, List.mem_of_getElem? hms, hm⟩

theorem all_write (c : Chapters) (m : Input) : (c.write m).all = c.all ++ [m] := by
  simp [all, write]

theorem forall_mem_all_write {p : Input → Prop} :
    (∀ m' ∈ (c.write m).all, p m') ↔ (∀ m' ∈ c.all, p m') ∧ p m := by
  rw [all_write, List.forall_mem_append, List.forall_mem_singleton]

theorem all_sealHead (c : Chapters) : c.sealHead.all = c.all := by
  simp [all, sealHead]

theorem whole_map_envelope (n : Nat) (ms : List Input) :
    Record.whole n (ms.map Input.envelope) = (within n ms).map Input.envelope := by
  induction ms generalizing n with
  | nil => rfl
  | cons m ms ih =>
    rw [List.map_cons, Record.whole, within]
    split
    · rw [ih, List.map_cons]
    · rfl

theorem within_sublist (n : Nat) (ms : List Input) : (within n ms).Sublist ms := by
  induction ms generalizing n with
  | nil => exact .slnil
  | cons m ms ih =>
    rw [within]
    split
    · exact (ih _).cons_cons m
    · exact List.nil_sublist _

/-! ## Steps -/

namespace Fill

variable (h : c.Fill rest s d)
include h

theorem congr (hd : ∀ f, d'.content f = d.content f) : c.Fill rest s d' := by
  have hfun : d'.content = d.content := funext hd
  exact ⟨hfun ▸ h.tails, hfun ▸ h.head⟩

theorem length_tails : s.tails.length = c.tails.length := by
  simpa using congrArg List.length h.tails

theorem head_content (hid : s.head = some id) : d.content id = frames c.head ++ rest := by
  simpa [hid] using h.head

/-- There is nothing in a head that is missing. -/
theorem head_eq_nil (hnone : s.head = none) : c.head = [] ∧ rest = [] := by
  have hnil := h.head
  simp only [hnone, Option.map_none, Option.getD_none] at hnil
  exact (List.append_eq_nil_iff.1 hnil.symm).imp_left frames_eq_nil.1

theorem sealHead (hid : s.head = some id) (hrest : rest = []) :
    c.sealHead.Fill [] (s.sealHead id) d := by
  refine ⟨?_, rfl⟩
  simp [Shelf.sealHead, Chapters.sealHead, h.tails, h.head_content hid, hrest]

theorem withHead (hhead : c.head = []) (hnew : d.content new = []) :
    c.Fill [] (s.withHead new) d :=
  ⟨h.tails, by simp [Shelf.withHead, hnew, hhead]⟩

theorem drop (k : Nat) : (c.drop k).Fill rest (s.drop k) d := by
  refine ⟨?_, h.head⟩
  simp only [Shelf.drop, Chapters.drop, List.map_drop, h.tails]

theorem renumber : c.Fill rest s.renumber d := ⟨h.tails, h.head⟩

/-- Only the head has other bytes when the content of its file is replaced. -/
theorem setContent (c' : Chapters) (rest' : Bytes) (hnodup : s.files.Nodup)
    (hlt : id < d.contents.length) (hid : s.head = some id) (htails : c'.tails = c.tails) :
    c'.Fill rest' s (d.setContent id (frames c'.head ++ rest')) := by
  refine ⟨?_, by simp [hid, Disk.content_setContent hlt]⟩
  rw [htails, ← h.tails]
  refine List.map_congr_left fun f hf => ?_
  rw [Disk.content_setContent hlt, if_neg (Shelf.ne_of_mem_tails hnodup hid hf)]

end Fill

/-- What is written is added to the head. -/
theorem Fill.write (h : c.Fill [] s d) (hnodup : s.files.Nodup) (hlt : id < d.contents.length)
    (hid : s.head = some id) (m : Input) :
    (c.write m).Fill [] s (d.append id (Record.encode m.envelope)) := by
  have hcontent := h.head_content hid
  have hset := h.setContent (c.write m) [] hnodup hlt hid rfl
  simpa [Disk.append, hcontent, Chapters.write, frames_singleton] using hset

/-- After sealing the head, there is nothing but an empty one. -/
theorem Fill.rotated (h : c.Fill [] s d) (hid : s.head = some id)
    (hd : ∀ f, d'.content f = d.content f) :
    c.sealHead.Fill [] (s.rotated id d.contents.length) d' := by
  refine ((h.sealHead hid rfl).congr hd).withHead rfl ?_
  rw [hd, Disk.content_length_contents]

end Chapters

end ConsensusCore
