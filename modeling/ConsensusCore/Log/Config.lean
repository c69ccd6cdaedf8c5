import ConsensusCore.Duration

/-!
# Configuration of a log

Where the segments of a log are kept and how large they may get. The head
segment has the name `WAL`; segments that are full have it with their number.
-/

namespace ConsensusCore

/-- The configuration of a log. -/
structure LogConfig where
  /-- The directory of the segments. -/
  dir : String
  /-- The size from which on the head is sealed. -/
  headSizeLimit : Nat
  /-- The size of all segments above which the oldest are deleted, unless it is 0. -/
  totalSizeLimit : Nat
  /-- How often the sizes are looked at. -/
  checkInterval : Duration
  /-- The length of the largest envelope. -/
  maxRecordSize : Nat
deriving DecidableEq

/-- What is wrong with a configuration. -/
inductive LogConfigError where
  | headSizeLimit
  | checkInterval
  | maxRecordSize (found : Nat)
deriving DecidableEq, Repr

/-- The error in words. -/
def LogConfigError.message : LogConfigError → String
  | .headSizeLimit => "head_size_limit must be > 0"
  | .checkInterval => "group_check_interval must be > 0"
  | .maxRecordSize found => s!"max_record_size must be in [1, u32::MAX], got {found}"

/-- The name below a directory; one that begins with a slash stands for itself. -/
def joinPath (dir name : String) : String :=
  if name.startsWith "/" then name
  else if dir.isEmpty || dir.endsWith "/" then dir ++ name
  else dir ++ "/" ++ name

namespace LogConfig

/-- The name of the head segment. -/
def headName : String := "WAL"

/-- The usual limits, for a log in `dir`. -/
def inDir (dir : String) : LogConfig where
  dir
  headSizeLimit := 10 * 1024 * 1024
  totalSizeLimit := 1024 * 1024 * 1024
  checkInterval := .ofMillis 5000
  maxRecordSize := 1024 * 1024

/-- The usual configuration. -/
def default : LogConfig := inDir "consensus-wal"

/-- Small limits, for a log in `dir`. -/
def dev (dir : String) : LogConfig where
  dir
  headSizeLimit := 4096
  totalSizeLimit := 0
  checkInterval := .ofMillis 50
  maxRecordSize := 64 * 1024

/-- The path of the head segment. -/
def headPath (c : LogConfig) : String := joinPath c.dir headName

/-- Refuses configurations under which no log can be kept. -/
def validate (c : LogConfig) : Except LogConfigError Unit :=
  if c.headSizeLimit = 0 then .error .headSizeLimit
  else if c.checkInterval = .zero then .error .checkInterval
  else if c.maxRecordSize = 0 ∨ UInt32.size ≤ c.maxRecordSize then
    .error (.maxRecordSize c.maxRecordSize)
  else .ok ()

end LogConfig

end ConsensusCore
