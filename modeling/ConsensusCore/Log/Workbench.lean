import ConsensusCore.Log.Basic
import ConsensusCore.Message.Registries

/-!
# A workbench for logs

A disk on which at most one log is open at a time, with readers that are known by
name, and with hands on the files themselves: a setting in which a log can be
operated step by step, damaged and recovered. The log uses the registries in
which each variant of messages has its own code.

A reader belongs to the log that it was made from, and to the segments of that
log as it has left them, once it is dropped. A log that is watched is looked after
in the background until it is closed, and meanwhile its state is only told to those
who have just waited for that (`WorkbenchAction.awaitSegments`).
-/

namespace ConsensusCore

/-- A reader, and the segments of its log if that is not the open one any more. -/
structure Follower where
  reader : Reader
  left : Option Group

/-- A disk, the log open on it, and the readers by name. -/
structure Workbench where
  /-- The directory that all else is in. -/
  root : String
  disk : Disk
  group : Option Group
  /-- Whether the open log is looked after in the background. -/
  watched : Bool
  readers : List (String × Follower)

/-- What can be done on a workbench. -/
inductive WorkbenchAction where
  | openLog (config : LogConfig) (watched : Bool)
  | write (m : Input)
  | flush
  | close
  | clear
  | drop
  | checkLimits
  | rotate
  /-- Waits until the log has so many segments. -/
  | awaitSegments (count : Nat)
  | segmentPath (index : Nat)
  | describe
  | newReader (id : String)
  | searchLatest (id : String)
  | search (id : String) (height : UInt64)
  | read (id : String)
  | readAll (id : String) (limit : Nat)
  | describeReader (id : String)
  | closeReader (id : String)
  | writeFile (name : String) (bs : Bytes)
  | appendFile (name : String) (bs : Bytes)
  | truncateFile (name : String) (length : Nat)
  /-- Changes the bits of a mask in one byte. -/
  | flipBits (name : String) (offset : Nat) (mask : UInt8)
  | removeFile (name : String)
  | makeDirectory (name : String)
  | removeDirectory (name : String)
  | fileBytes (name : String)

/-- What an action comes to. -/
inductive WorkbenchAnswer where
  | done
  | failed (error : LogError)
  | noLog
  | noReader
  | count (n : Nat)
  | text (s : String)
  | bytes (bs : Bytes)
  /-- A reader, and the height of the marker it is behind if that was searched for. -/
  | reader (position : Nat × Nat) (height : Option UInt64)
  /-- No such marker. -/
  | noMarker
  /-- What was read, `none` standing for the end, and the position then. -/
  | read (items : List (Except LogError (Option Input))) (position : Nat × Nat)

namespace Workbench

/-- The workbench with nothing on it. -/
def empty (root : String) : Workbench where
  root
  disk := Disk.empty.set [root] .directory
  group := none
  watched := false
  readers := []

/-- The registry of the log. -/
def registry : Registry Input := Registry.inputs Registry.peers

/-- The route to a file of the workbench. -/
def routeOf (w : Workbench) (name : String) : Route := .ofText (joinPath w.root name)

/-- The files and directories of the workbench. -/
def listing (w : Workbench) : List (String × Option Nat) :=
  let inside := w.disk.entries.filterMap fun (p, n) =>
    if p.head? = some w.root && 1 < p.length then some (p.drop 1, n) else none
  { w.disk with entries := inside }.listing

/-- Whether the state can be told after an action. -/
def tells (w : Workbench) (a : WorkbenchAction) : Bool :=
  match a, w.group with
  | .awaitSegments _, _ | _, none => true
  | _, some g => g.isClosed || !w.watched

/-- The workbench after the open log is dropped. -/
def dropLog (w : Workbench) : Workbench :=
  match w.group with
  | none => w
  | some g =>
    { w with
      group := none
      readers := w.readers.map fun (id, f) => (id, { f with left := some (f.left.getD g.close) }) }

/-- The workbench with a log in place of the open one. -/
def putLog (w : Workbench) (log : Log) : Workbench :=
  { w with disk := log.disk, group := some log.group }

/-- Does something with the open log. -/
def withLog (w : Workbench) (f : Log → WorkbenchAnswer × Workbench) :
    WorkbenchAnswer × Workbench :=
  match w.group with
  | some g => f ⟨w.disk, g, registry⟩
  | none => (.noLog, w)

/-- The answer to an action that changes the log, or leaves it as it is. -/
def change (w : Workbench) : Except LogError Log → WorkbenchAnswer × Workbench
  | .ok log => (.done, w.putLog log)
  | .error e => (.failed e, w)

/-- The answer to an action that may fail with the log changed. -/
def finish (w : Workbench) : Except LogError Unit × Log → WorkbenchAnswer × Workbench
  | (.ok (), log) => (.done, w.putLog log)
  | (.error e, log) => (.failed e, w.putLog log)

/-- The workbench with a reader under a name. -/
def putReader (w : Workbench) (id : String) (f : Follower) : Workbench :=
  { w with readers := (id, f) :: w.readers.filter fun e => !(e.1 == id) }

/-- Keeps a new reader of the open log. -/
def keep (w : Workbench) (id : String) (height : Option UInt64) (r : Reader) :
    WorkbenchAnswer × Workbench :=
  (.reader r.position height, w.putReader id ⟨r, none⟩)

/-- Does something with a reader and its log. -/
def withReader (w : Workbench) (id : String)
    (f : Log → Reader → List (Except LogError (Option Input)) × Reader) :
    WorkbenchAnswer × Workbench :=
  match w.readers.lookup id, w.group with
  | none, _ => (.noReader, w)
  | some ⟨r, left⟩, open? =>
    match left.or open? with
    | none => (.noReader, w)
    | some g =>
      let (items, r) := f ⟨w.disk, g, registry⟩ r
      (.read items r.position, w.putReader id ⟨r, left⟩)

/-- The log once the sizes of its segments have been looked at, unless there are `count`
    segments anyway. To look again would change nothing. -/
def awaitSegments (count : Nat) (log : Log) : Log :=
  if log.group.size = count then log else log.checkLimits.2

/-- The answer to an action on the files, which leaves the disk as it is if it fails. -/
def changeDisk (w : Workbench) : Except DiskError Disk → WorkbenchAnswer × Workbench
  | .ok disk => (.done, { w with disk })
  | .error e => (.failed (.disk e), w)

/-- Creates the directories of a route, and then does something with the disk. -/
def withDirs (w : Workbench) (r : Route) (f : Workbench → WorkbenchAnswer × Workbench) :
    WorkbenchAnswer × Workbench :=
  match w.disk.createDirs r with
  | (.ok (), disk) => f { w with disk }
  | (.error e, disk) => (.failed (.disk e), { w with disk })

/-- Changes the content of a file. -/
def changeFile (w : Workbench) (name : String) (f : Bytes → Bytes) :
    WorkbenchAnswer × Workbench :=
  w.changeDisk <| (w.disk.fileAt (w.routeOf name)).map fun id =>
    w.disk.setContent id (f (w.disk.content id))

/-- Changes the content of a file, which is created if it is not there. -/
def changeOrCreate (w : Workbench) (name : String) (f : Bytes → Bytes) :
    WorkbenchAnswer × Workbench :=
  w.withDirs ((w.routeOf name).parent?.getD []) fun w =>
    w.changeDisk <| (w.disk.openFile (w.routeOf name)).map fun (d, id) =>
      d.setContent id (f (d.content id))

/-- Carries out an action. -/
def run (w : Workbench) : WorkbenchAction → WorkbenchAnswer × Workbench
  | .openLog config watched =>
    let w := w.dropLog
    match Log.openIn config registry w.disk with
    | (.ok log, _) => (.done, { w.putLog log with watched })
    | (.error e, disk) => (.failed e, { w with disk })
  | .write m => w.withLog fun log => w.change (log.write m)
  | .flush => w.withLog fun _ => (.done, w)
  | .close => w.withLog fun log => (.done, w.putLog log.close)
  | .clear => w.withLog fun log => w.finish log.clear
  | .drop => (.done, w.dropLog)
  | .checkLimits => w.withLog fun log => w.finish log.checkLimits
  | .rotate => w.withLog fun log => w.change log.rotate
  | .awaitSegments count => w.withLog fun log =>
    let log := awaitSegments count log
    (.count log.group.size, w.putLog log)
  | .segmentPath index => w.withLog fun log => (.text (log.group.segmentText index), w)
  | .describe => w.withLog fun log => (.text log.toText, w)
  | .newReader id => w.withLog fun log =>
    match log.newReader with
    | .ok r => w.keep id none r
    | .error e => (.failed e, w)
  | .searchLatest id => w.withLog fun log =>
    match log.searchLatestEndHeight with
    | .ok (some (height, r)) => w.keep id (some height) r
    | .ok none => (.noMarker, w)
    | .error e => (.failed e, w)
  | .search id height => w.withLog fun log =>
    match log.searchEndHeight height with
    | .ok (some r) => w.keep id none r
    | .ok none => (.noMarker, w)
    | .error e => (.failed e, w)
  | .read id => w.withReader id fun log r =>
    let (item, r) := log.read r
    ([item], r)
  | .readAll id limit => w.withReader id fun log r =>
    let (items, r) := r.readAll log.registry log.disk log.group limit
    (items.map fun item => item.map some, r)
  | .describeReader id =>
    match w.readers.lookup id with
    | some f => (.text f.reader.toText, w)
    | none => (.noReader, w)
  | .closeReader id =>
    match w.readers.lookup id with
    | some _ => (.done, { w with readers := w.readers.filter fun e => !(e.1 == id) })
    | none => (.noReader, w)
  | .writeFile name bs => w.changeOrCreate name fun _ => bs
  | .appendFile name bs => w.changeOrCreate name fun old => old ++ bs
  | .truncateFile name length => w.changeFile name fun old =>
    old.take length ++ List.replicate (length - old.length) 0
  | .flipBits name offset mask => w.changeFile name fun old =>
    old.modify offset fun b => b ^^^ mask
  | .removeFile name => w.changeDisk (w.disk.remove (w.routeOf name))
  | .makeDirectory name => w.withDirs (w.routeOf name) fun w => (.done, w)
  | .removeDirectory name => w.changeDisk (w.disk.removeDirs (w.routeOf name))
  | .fileBytes name =>
    match w.disk.fileAt (w.routeOf name) with
    | .ok id => (.bytes (w.disk.content id), w)
    | .error e => (.failed (.disk e), w)

end Workbench

end ConsensusCore
