import ConsensusCore.Bytes.Basic

/-!
# Disks

A disk holds named files and directories. A name refers to a file, and who has
opened a file refers to it as well, so a file outlives its name: it can be read
on, and written to, under another name or none. Hence a name leads to the
identity of a file (`Node`), and the identity to its contents.

A place on a disk (`Path`) is one thing, and the way to it (`Route`) another, since
one may go up again, or stay, on the way. Both begin at the root of the disk, which
always is a directory. A route is followed name by name (`Disk.locate`), and each
but the last place that it comes through must be a directory that is there.

Operations fail as those of an operating system do (`DiskError`). What one that
consists of several steps has done before it fails stays done.
-/

namespace ConsensusCore

/-- A place on a disk: the names of the directories on the way, and its own. -/
abbrev Path := List String

/-- The text of a path. -/
def Path.toText (p : Path) : String := "/".intercalate p

/-- A way from the root of a disk: the names that are followed. A dot, or no name at
    all, stays in the directory; two dots lead back to the one that it is in. -/
abbrev Route := List String

namespace Route

/-- The route with a text, the names of which stand between slashes. -/
def ofText (s : String) : Route := (s.toList.splitOn '/').map String.ofList

/-- The text of a route. -/
def toText (r : Route) : String := "/".intercalate r

/-- Whether a name stays in the directory. -/
def stays (name : String) : Bool := name.isEmpty || name == "."

/-- The route without the slashes at its end. -/
def dropSlashes (r : Route) : Route := (r.reverse.dropWhile String.isEmpty).reverse

/-- The route without the names at its end that stay where they are. -/
def trim (r : Route) : Route := (r.reverse.dropWhile stays).reverse

/-- The route to the directory of the last name that does not stay; `none` if there is
    no such name. -/
def parent? (r : Route) : Option Route :=
  if r.trim.isEmpty then none else some (trim r.trim.dropLast)

theorem length_trim_le (r : Route) : r.trim.length ≤ r.length := by
  have := (List.dropWhile_sublist stays (l := r.reverse)).length_le
  simpa [trim] using this

theorem length_lt_of_parent? {r s : Route} (h : r.parent? = some s) : s.length < r.length := by
  unfold parent? at h
  split at h
  · cases h
  next hr =>
    cases h
    have h1 := length_trim_le r.trim.dropLast
    have h2 := length_trim_le r
    have h3 : 0 < r.trim.length := List.length_pos_iff.2 fun e => hr (by simp [e])
    rw [List.length_dropLast] at h1
    omega

end Route

/-- Identifies a file for as long as anything refers to it. -/
abbrev FileId := Nat

/-- What a name refers to. -/
inductive Node where
  | file (id : FileId)
  | directory
deriving DecidableEq, Repr

/-- Why an operation on a disk fails. -/
inductive DiskError where
  | notFound
  | alreadyExists
  | notDirectory
  | isDirectory
  /-- A name, or a whole route, is too long. -/
  | nameTooLong
  | notEmpty
  /-- The route has a character that no name can have. -/
  | invalidName
deriving DecidableEq, Repr

/-- The error in words, with its number if the operating system has one for it. -/
def DiskError.message : DiskError → String
  | .notFound => "No such file or directory (os error 2)"
  | .alreadyExists => "File exists (os error 17)"
  | .notDirectory => "Not a directory (os error 20)"
  | .isDirectory => "Is a directory (os error 21)"
  | .nameTooLong => "File name too long (os error 36)"
  | .notEmpty => "Directory not empty (os error 39)"
  | .invalidName => "file name contained an unexpected NUL byte"

/-- A disk: what the names on it refer to, and the contents of the files. -/
structure Disk where
  entries : List (Path × Node)
  contents : List Bytes
deriving DecidableEq

namespace Disk

/-- The disk without files. -/
def empty : Disk := ⟨[], []⟩

/-- What a path refers to, if the directories on the way are there. -/
def find? (d : Disk) (p : Path) : Option Node :=
  if p.isEmpty then some .directory else d.entries.lookup p

/-- The contents of a file. -/
def content (d : Disk) (id : FileId) : Bytes := d.contents[id]?.getD []

/-- The disk with the contents of a file replaced. -/
def setContent (d : Disk) (id : FileId) (bs : Bytes) : Disk :=
  { d with contents := d.contents.set id bs }

/-- The disk with bytes added to the end of a file. -/
def append (d : Disk) (id : FileId) (bs : Bytes) : Disk := d.setContent id (d.content id ++ bs)

/-- The disk without a name. -/
def erase (d : Disk) (p : Path) : Disk :=
  { d with entries := d.entries.filter fun e => !(e.1 == p) }

/-- The disk with a name referring to a node. -/
def set (d : Disk) (p : Path) (n : Node) : Disk :=
  { d with entries := (p, n) :: (d.erase p).entries }

/-- How many bytes a name can have. -/
def maxName : Nat := 255

/-- How many bytes the text of a route can have. -/
def maxRoute : Nat := 4095

/-- The place that a name leads to from another one. -/
def step (d : Disk) (p : Path) (name : String) : Except DiskError Path :=
  match d.find? p with
  | none => .error .notFound
  | some (.file _) => .error .notDirectory
  | some .directory =>
    if Route.stays name then .ok p
    else if name = ".." then .ok p.dropLast
    else if maxName < name.utf8ByteSize then .error .nameTooLong
    else .ok (p ++ [name])

/-- The place that a route leads to, where nothing need be. -/
def locate (d : Disk) (r : Route) : Except DiskError Path :=
  if r.any fun name => name.toList.contains '\x00' then .error .invalidName
  else if maxRoute < r.toText.utf8ByteSize then .error .nameTooLong
  else r.foldlM d.step []

/-- What is at the end of a route, and its place. -/
def resolve (d : Disk) (r : Route) : Except DiskError (Path × Node) := do
  let p ← d.locate r
  match d.find? p with
  | some n => return (p, n)
  | none => .error .notFound

/-- Whether anything is at the end of a route. -/
def exists? (d : Disk) (r : Route) : Bool :=
  match d.resolve r with
  | .ok _ => true
  | .error _ => false

/-- Whether a directory is at the end of a route. -/
def isDirectory (d : Disk) (r : Route) : Bool :=
  match d.resolve r with
  | .ok (_, .directory) => true
  | _ => false

/-- The file at the end of a route. -/
def fileAt (d : Disk) (r : Route) : Except DiskError FileId :=
  match d.resolve r with
  | .ok (_, .file id) => .ok id
  | .ok (_, .directory) => .error .isDirectory
  | .error e => .error e

/-- The bytes that a directory takes on the disk, however little is in it. -/
def directorySize : Nat := 4096

/-- The size of what is at the end of a route, 0 if nothing is. -/
def sizeAt (d : Disk) (r : Route) : Nat :=
  match d.resolve r with
  | .ok (_, .file id) => (d.content id).length
  | .ok (_, .directory) => directorySize
  | .error _ => 0

/-- The names in a directory. -/
def list (d : Disk) (r : Route) : Except DiskError (List String) :=
  match d.resolve r with
  | .ok (p, .directory) =>
    .ok (d.entries.filterMap fun e => if e.1.dropLast = p then e.1.getLast? else none)
  | .ok (_, .file _) => .error .notDirectory
  | .error e => .error e

/-- Creates a directory where nothing is. Slashes at the end of the route are all right
    before it is there. -/
def makeDir (d : Disk) (r : Route) : Except DiskError Disk := do
  let p ← d.locate r.dropSlashes
  match d.find? p with
  | some _ => .error .alreadyExists
  | none => return d.set p .directory

/-- Creates a directory, which may be there already, and those on the way to it if it
    cannot be created without them. -/
def createDirs (d : Disk) (r : Route) : Except DiskError Unit × Disk :=
  match d.makeDir r with
  | .ok d => (.ok (), d)
  | .error .notFound =>
    -- a directory on the way is missing
    match _h : r.parent? with
    | none => (.error .notFound, d)
    | some parent =>
      match d.createDirs parent with
      | (.error e, d) => (.error e, d)
      | (.ok (), d) =>
        match d.makeDir r with
        | .ok d => (.ok (), d)
        | .error e => (if d.isDirectory r then .ok () else .error e, d)
  -- whatever it was, a directory that is there will do
  | .error e => (if d.isDirectory r then .ok () else .error e, d)
termination_by r.length
decreasing_by exact Route.length_lt_of_parent? _h

/-- Opens the file at the end of a route, creating an empty one if nothing is there. -/
def openFile (d : Disk) (r : Route) : Except DiskError (Disk × FileId) := do
  let p ← d.locate r
  match d.find? p with
  | some (.file id) => return (d, id)
  | some .directory => .error .isDirectory
  | none =>
    let id := d.contents.length
    return ({ d.set p (.file id) with contents := d.contents ++ [[]] }, id)

/-- Deletes the name of a file. -/
def remove (d : Disk) (r : Route) : Except DiskError Disk :=
  match d.resolve r with
  | .ok (p, .file _) => .ok (d.erase p)
  | .ok (_, .directory) => .error .isDirectory
  | .error e => .error e

/-- Deletes a directory and all that is in it. -/
def removeDirs (d : Disk) (r : Route) : Except DiskError Disk :=
  match d.resolve r with
  | .ok (p, .directory) =>
    .ok { d with entries := d.entries.filter fun e => !(p.isPrefixOf e.1) }
  | .ok (_, .file _) => .error .notDirectory
  | .error e => .error e

/-- The disk with a name, and all below it, under another name. -/
def move (d : Disk) (p q : Path) : Disk :=
  { d with
    entries := d.entries.map fun e =>
      if p.isPrefixOf e.1 then (q ++ e.1.drop p.length, e.2) else e }

/-- Moves what is at the end of a route to that of another one; a file there is replaced. -/
def rename (d : Disk) (r s : Route) : Except DiskError Disk := do
  let (p, n) ← d.resolve r
  let q ← d.locate s
  match n, d.find? q with
  | .file _, some .directory => .error .isDirectory
  | .file id, _ => return (d.erase p).set q (.file id)
  | .directory, some (.file _) => .error .notDirectory
  | .directory, some .directory =>
    -- only an empty directory can be replaced
    if d.entries.any fun e => e.1.dropLast = q then .error .notEmpty
    else return (d.erase q).move p q
  | .directory, none => return d.move p q

/-- The paths on a disk in the order of their texts, with the sizes of files. -/
def listing (d : Disk) : List (String × Option Nat) :=
  let all := d.entries.map fun (p, n) =>
    (p.toText, match n with
      | .file id => some (d.content id).length
      | .directory => none)
  all.mergeSort fun a b => decide (a.1 ≤ b.1)

end Disk

end ConsensusCore
