import ConsensusCore.Log.Reader

/-!
# Logs

A log records the inputs of the state machine, in the order in which they are
applied. What is written to it is framed as a record and added to the head of its
segments; readers replay it from the oldest segment on, or from behind a marker
that closes a height.

The markers are searched for from the newest segment back (`Log.search`), and the
last one inside a segment counts, so that the one found is the last one of all.
A beginning of a record at the end of a segment ends it, as does the end of the
bytes; any other record that cannot be replayed fails the search.
-/

namespace ConsensusCore

/-- A log: its segments, the disk they are on, and how messages are encoded. -/
structure Log where
  disk : Disk
  group : Group
  registry : Registry Input

namespace Log

/-- Opens the log in the directory of a configuration, or creates it. -/
def openIn (config : LogConfig) (registry : Registry Input) (d : Disk) :
    Except LogError Log × Disk :=
  match config.validate with
  | .error e => (.error (.config e), d)
  | .ok () =>
    match Group.openIn config d with
    | (.error e, d) => (.error (.disk e), d)
    | (.ok group, d) => (.ok ⟨d, group, registry⟩, d)

/-- The log after an operation on its segments. -/
def withGroup (log : Log) : Except LogError Unit × Group × Disk → Except LogError Unit × Log
  | (result, group, disk) => (result, { log with group, disk })

/-- The envelope of a message, unless it is too long for a record. -/
def envelope (log : Log) (m : Input) : Except LogError Bytes :=
  match log.registry.encode m with
  | .error e => .error (.codec e)
  | .ok bs =>
    if log.group.config.maxRecordSize < bs.length then
      .error (.recordTooLarge bs.length log.group.config.maxRecordSize)
    else .ok bs

/-- Adds a message to the end of the log. -/
def write (log : Log) (m : Input) : Except LogError Log :=
  match log.envelope m with
  | .error e => .error e
  | .ok bs =>
    match log.group.write log.disk (Record.encode bs) with
    | .error e => .error e
    | .ok (group, disk) => .ok { log with group, disk }

/-- Seals the head. -/
def rotate (log : Log) : Except LogError Log :=
  match log.group.rotate log.disk with
  | .error e => .error e
  | .ok (group, disk) => .ok { log with group, disk }

/-- Looks at the sizes of the segments, seals the head and deletes old segments
    as needed. -/
def checkLimits (log : Log) : Except LogError Unit × Log :=
  log.withGroup (log.group.checkLimits log.disk)

/-- Closes the log; nothing can be written to it any more. -/
def close (log : Log) : Log := { log with group := log.group.close }

/-- Closes the log and deletes all of its segments. -/
def clear (log : Log) : Except LogError Unit × Log :=
  log.close.withGroup (log.close.group.removeFiles log.disk)

/-- A reader that starts at the oldest segment. -/
def newReader (log : Log) : Except LogError Reader :=
  if log.group.isClosed then .error .closed
  else .ok (.atPosition log.group log.group.minIndex 0)

/-- Reads the next message with a reader of the log. -/
def read (log : Log) (r : Reader) : Except LogError (Option Input) × Reader :=
  r.read log.registry log.disk log.group

/-! ## Searching for markers -/

/-- The last marker accepted among some envelopes, of which the first starts at
    `offset`: its height, and where it ends. -/
def lastMarker (registry : Registry Input) (accept : UInt64 → Bool) (path : String) :
    Nat → Option (UInt64 × Nat) → List Bytes → Except LogError (Option (UInt64 × Nat))
  | _, found, [] => .ok found
  | offset, found, e :: rest =>
    match registry.decode e with
    | .error err => .error (.corrupt path offset (.envelope err))
    | .ok m =>
      let after := offset + (Record.headerLength + e.length)
      let found :=
        match m.endHeight? with
        | some h => if accept h then some (h, after) else found
        | none => found
      lastMarker registry accept path after found rest

/-- The last marker accepted in the segment with a number: its height, its
    segment and where it ends. -/
def markerIn (log : Log) (accept : UInt64 → Bool) (index : Nat) :
    Except LogError (Option (UInt64 × Nat × Nat)) :=
  match log.disk.fileAt (log.group.segmentRoute index) with
  | .error e => .error (.disk e)
  | .ok id =>
    let path := log.group.segmentText index
    let (envelopes, ending) := Record.scan log.group.config.maxRecordSize (log.disk.content id)
    match lastMarker log.registry accept path 0 none envelopes with
    | .error e => .error e
    | .ok found =>
      match ending with
      | .corrupt fault => .error (.corrupt path (Record.totalLength envelopes) (.record fault))
      | _ => .ok (found.map fun (height, offset) => (height, index, offset))

/-- The last marker accepted in the oldest segments, up to the one that is
    `count` numbers from the oldest. -/
def searchFrom (log : Log) (accept : UInt64 → Bool) :
    Nat → Except LogError (Option (UInt64 × Nat × Nat))
  | 0 => log.markerIn accept log.group.minIndex
  | count + 1 =>
    match log.markerIn accept (log.group.minIndex + (count + 1)) with
    | .ok none => log.searchFrom accept count
    | result => result

/-- The last marker accepted: its height, and a reader behind it. -/
def search (log : Log) (accept : UInt64 → Bool) : Except LogError (Option (UInt64 × Reader)) :=
  if log.group.isClosed then .error .closed
  else
    (log.searchFrom accept (log.group.maxIndex - log.group.minIndex)).map fun found =>
      found.map fun (height, index, offset) => (height, .atPosition log.group index offset)

/-- The last marker of all, and a reader behind it. -/
def searchLatestEndHeight (log : Log) : Except LogError (Option (UInt64 × Reader)) :=
  log.search fun _ => true

/-- A reader behind the last marker that closes a height. -/
def searchEndHeight (log : Log) (height : UInt64) : Except LogError (Option Reader) :=
  (log.search (· == height)).map fun found => found.map (·.2)

/-- The log in words. -/
def toText (log : Log) : String :=
  let g := log.group
  let closed := if g.isClosed then "true" else "false"
  "Wal \x7b dir: " ++ Text.quoted g.config.dir ++
    s!", min_index: {g.minIndex}, max_index: {g.maxIndex}, head_size: {g.headSize}, " ++
    s!"closed: {closed} \x7d"

end Log

end ConsensusCore
