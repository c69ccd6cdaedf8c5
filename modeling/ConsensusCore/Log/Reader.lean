import ConsensusCore.Log.Cursor
import ConsensusCore.Log.Group
import ConsensusCore.Message.Input

/-!
# Readers

A reader goes through the records of a log, from the oldest it was started at to
the newest, and on through those that are written meanwhile. Its position is the
segment and the offset of the next record. It opens a segment when it needs it,
and from then on reads that file, whatever name it gets.

At the end of a segment that is sealed it goes on to the next one. At the end of
the head, and before a record of which only the beginning is there, it stops and
comes back to the same place when asked again. A read is one step (`Reader.read`):
the group and the disk are the same from its beginning to its end, so that what is
read of a sealed segment is all there is to it.

After an error the segment stays open where the failed read has left it, while
the position only moves past a record that was framed well and has an envelope
that does not decode.
-/

namespace ConsensusCore

/-- A reader of a log. -/
structure Reader where
  /-- The number of the segment of the next record. -/
  index : Nat
  /-- Where the next record starts in it. -/
  offset : Nat
  maxRecordSize : Nat
  /-- The segment, once it is open, and the text of its path. -/
  segment : Option (Cursor × String)
deriving DecidableEq

namespace Reader

/-- A reader at a position. -/
def atPosition (g : Group) (index offset : Nat) : Reader :=
  ⟨index, offset, g.config.maxRecordSize, none⟩

/-- The segment and the offset of the next record. -/
def position (r : Reader) : Nat × Nat := (r.index, r.offset)

/-- The segment with a number, open at an offset. -/
def openSegment (d : Disk) (g : Group) (index offset : Nat) : Except DiskError (Cursor × String) :=
  (d.resolve (g.segmentRoute index)).map fun (_, node) =>
    (.atPosition node offset, g.segmentText index)

/-- Reads a record at a cursor. -/
def readRecord (d : Disk) (max : Nat) (c : Cursor) : Except DiskError (RecordRead × Cursor) :=
  match c.node with
  | .directory => .error .isDirectory
  | .file id => .ok (Record.readFrom (Cursor.read (d.content id)) max c)

/-- The segment of a reader, opened if need be. -/
def currentSegment (d : Disk) (g : Group) (r : Reader) : Except DiskError (Cursor × String) :=
  match r.segment with
  | some s => .ok s
  | none => openSegment d g r.index r.offset

/-- Reads the next message; `none` at the end of what is written so far. This is one step,
    in which the group cannot change: a segment that is not sealed when the read begins is
    not sealed either when the reader has gone back to the offset, and there is no need to
    look again. What is sealed between two reads is seen by the second. -/
def read (registry : Registry Input) (d : Disk) (g : Group) (r : Reader) :
    Except LogError (Option Input) × Reader :=
  match currentSegment d g r with
  | .error e => (.error (.disk e), r)
  | .ok (cursor, path) =>
    match readRecord d r.maxRecordSize cursor with
    | .error e => (.error (.disk e), { r with segment := some (cursor, path) })
    | .ok (outcome, after) =>
      let stay := { r with segment := some (after, path) }
      match outcome with
      | .record envelope =>
        let past := { stay with offset := r.offset + (Record.headerLength + envelope.length) }
        match registry.decode envelope with
        | .ok m => (.ok (some m), past)
        | .error e => (.error (.corrupt path r.offset (.envelope e)), past)
      | .corrupt fault => (.error (.corrupt path r.offset (.record fault)), stay)
      | .torn n =>
        -- in a sealed segment the rest will never come
        if r.index < g.maxIndex then (.error (.corrupt path r.offset (.torn n)), stay)
        else (.ok none, { r with segment := some (after.seek r.offset, path) })
      | .eof =>
        if r.index < g.maxIndex then
          read registry d g { r with index := r.index + 1, offset := 0, segment := none }
        else (.ok none, { r with segment := some (after.seek r.offset, path) })
termination_by g.maxIndex - r.index

/-- Reads at most `limit` messages, up to the end or the first error. -/
def readAll (registry : Registry Input) (d : Disk) (g : Group) :
    Nat → Reader → List (Except LogError Input) × Reader
  | 0, r => ([], r)
  | limit + 1, r =>
    match r.read registry d g with
    | (.ok none, r) => ([], r)
    | (.error e, r) => ([.error e], r)
    | (.ok (some m), r) =>
      let (rest, r) := readAll registry d g limit r
      (.ok m :: rest, r)

/-- The reader in words. -/
def toText (r : Reader) : String :=
  s!"WalReader \x7b index: {r.index}, offset: {r.offset} \x7d"

end Reader

end ConsensusCore
