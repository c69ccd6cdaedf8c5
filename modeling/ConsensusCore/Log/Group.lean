import ConsensusCore.Log.Error
import ConsensusCore.Log.Segment

/-!
# Groups of segments

The segments of a log, and the operations that create, seal and delete them. The
head has the highest number of all. Sealing it (`Group.rotate`) gives it the name
of a tail, and puts an empty head with the next number in its place, so that the
order of the segments is that of their numbers.

The group remembers which numbers are in use, and how long the head is; a group
whose head is not open is closed. What an operation does to the disk stays done
when it fails later on, so it gives the group and the disk it leaves behind along
with its result.
-/

namespace ConsensusCore

/-- The segments of a log: the numbers from `minIndex` to `maxIndex`, the last
    of which is that of the head. -/
structure Group where
  config : LogConfig
  /-- The file of the head, while the group is open. -/
  head : Option FileId
  headSize : Nat
  minIndex : Nat
  maxIndex : Nat
deriving DecidableEq

namespace Group

/-- The route to the directory of the segments. -/
def dir (config : LogConfig) : Route := .ofText config.dir

/-- The route to the head. -/
def headRoute (config : LogConfig) : Route := dir config ++ [LogConfig.headName]

/-- The route to the tail with a number. -/
def tailRoute (config : LogConfig) (index : Nat) : Route := dir config ++ [Segment.tailName index]

/-- The numbers of the tails in the directory. -/
def tailIndices (config : LogConfig) (d : Disk) : Except DiskError (List Nat) :=
  (d.list (dir config)).map fun names => names.filterMap Segment.index?

/-- Cuts the beginning of a record off the end of the head. -/
def repairHead (config : LogConfig) (d : Disk) : Except DiskError Disk :=
  match d.fileAt (headRoute config) with
  | .ok id => .ok (d.setContent id (Record.repaired config.maxRecordSize (d.content id)))
  | .error e => .error e

/-- The group of the segments in a directory that is there, with an empty head if there
    is none. -/
def ofDir (config : LogConfig) (d : Disk) : Except DiskError (Group × Disk) := do
  let tails ← tailIndices config d
  let maxIndex := match tails.max? with
    | some last => Saturating.add last 1
    | none => 0
  let minIndex := tails.min?.getD maxIndex
  let d ← if d.exists? (headRoute config) then repairHead config d else pure d
  let (d, id) ← d.openFile (headRoute config)
  return (⟨config, some id, (d.content id).length, minIndex, maxIndex⟩, d)

/-- The group of the segments in the directory, which is created if it is not there. -/
def openIn (config : LogConfig) (d : Disk) : Except DiskError Group × Disk :=
  match d.createDirs (dir config) with
  | (.error e, d) => (.error e, d)
  | (.ok (), d) =>
    match ofDir config d with
    | .ok (group, d) => (.ok group, d)
    | .error e => (.error e, d)

/-- Whether the group is closed. -/
def isClosed (g : Group) : Bool := g.head.isNone

/-- The number of segments. -/
def size (g : Group) : Nat := Saturating.add (g.maxIndex - g.minIndex) 1

/-- The route to the segment with a number. -/
def segmentRoute (g : Group) (index : Nat) : Route :=
  if g.maxIndex ≤ index then headRoute g.config else tailRoute g.config index

/-- The text of the path of the segment with a number. -/
def segmentText (g : Group) (index : Nat) : String :=
  joinPath g.config.dir
    (if g.maxIndex ≤ index then LogConfig.headName else Segment.tailName index)

/-- Adds a record to the end of the head. -/
def write (g : Group) (d : Disk) (record : Bytes) : Except LogError (Group × Disk) :=
  match g.head with
  | none => .error .closed
  | some id => .ok ({ g with headSize := g.headSize + record.length }, d.append id record)

/-- Seals the head and opens an empty one. The head that cannot be sealed stays
    as it is. -/
def rotate (g : Group) (d : Disk) : Except LogError (Group × Disk) :=
  match g.head with
  | none => .error .closed
  | some _ =>
    match d.rename (headRoute g.config) (tailRoute g.config g.maxIndex) with
    | .error e => .error (.disk e)
    | .ok d =>
      match d.openFile (headRoute g.config) with
      | .error e => .error (.disk e)
      | .ok (d, id) =>
        .ok ({ g with head := some id, headSize := 0, maxIndex := Saturating.add g.maxIndex 1 }, d)

/-- The length of the tail with a number. -/
def tailSize (g : Group) (d : Disk) (index : Nat) : Nat := d.sizeAt (tailRoute g.config index)

/-- The length of all segments. -/
def totalSize (g : Group) (d : Disk) : Nat :=
  (List.range' g.minIndex (g.maxIndex - g.minIndex)).foldl
    (fun n i => n + g.tailSize d i) g.headSize

/-- Deletes the oldest tails, at most `count` of them, for as long as the `total`
    length is above the limit. A tail that is not there counts as deleted. -/
def trim : Nat → Nat → Group → Disk → Except LogError Unit × Group × Disk
  | 0, _, g, d => (.ok (), g, d)
  | count + 1, total, g, d =>
    if total ≤ g.config.totalSizeLimit then (.ok (), g, d)
    else
      let oldest := tailRoute g.config g.minIndex
      let rest := fun d' =>
        trim count (total - g.tailSize d g.minIndex) { g with minIndex := g.minIndex + 1 } d'
      match d.remove oldest with
      | .ok d' => rest d'
      -- somebody else has deleted it
      | .error .notFound => rest d
      | .error e => (.error (.disk e), g, d)

/-- Seals the head if it has grown to its limit, then deletes the oldest tails
    while all segments together are above theirs. -/
def checkLimits (g : Group) (d : Disk) : Except LogError Unit × Group × Disk :=
  if g.isClosed then (.ok (), g, d)
  else
    let sealed := if g.config.headSizeLimit ≤ g.headSize then g.rotate d else .ok (g, d)
    match sealed with
    | .error e => (.error e, g, d)
    | .ok (g, d) =>
      if g.config.totalSizeLimit = 0 then (.ok (), g, d)
      else trim (g.maxIndex - g.minIndex) (g.totalSize d) g d

/-- Closes the head. -/
def close (g : Group) : Group := { g with head := none }

/-- Deletes the tails with some numbers, up to the first that cannot be deleted. -/
def removeTails (config : LogConfig) : List Nat → Disk → Except LogError Unit × Disk
  | [], d => (.ok (), d)
  | index :: rest, d =>
    match d.remove (tailRoute config index) with
    | .ok d => removeTails config rest d
    | .error e => (.error (.disk e), d)

/-- Deletes all segments of a closed group, the head first. -/
def removeFiles (g : Group) (d : Disk) : Except LogError Unit × Group × Disk :=
  let headless :=
    if d.exists? (headRoute g.config) then d.remove (headRoute g.config) else .ok d
  match headless with
  | .error e => (.error (.disk e), g, d)
  | .ok d =>
    match tailIndices g.config d with
    | .error e => (.error (.disk e), g, d)
    | .ok indices =>
      match removeTails g.config indices d with
      | (.error e, d) => (.error e, g, d)
      | (.ok (), d) => (.ok (), { g with headSize := 0, minIndex := 0, maxIndex := 0 }, d)

end Group

end ConsensusCore
