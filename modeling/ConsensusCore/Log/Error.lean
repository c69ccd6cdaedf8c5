import ConsensusCore.Codec.Registry
import ConsensusCore.Log.Config
import ConsensusCore.Log.Disk
import ConsensusCore.Log.Record
import ConsensusCore.Text.Quoted

/-!
# Errors of a log

What can go wrong with a log. An error about the contents of a segment tells the
segment and where the record in question starts.
-/

namespace ConsensusCore

/-- Why a record of a segment cannot be replayed. -/
inductive Corruption where
  /-- The record cannot be trusted. -/
  | record (fault : RecordFault)
  /-- A segment that is no longer written to ends inside a record. -/
  | torn (read : Nat)
  /-- The envelope is not one of a message. -/
  | envelope (error : CodecError)
deriving DecidableEq, Repr

/-- The reason in words. -/
def Corruption.message : Corruption → String
  | .record fault => fault.message
  | .torn read => s!"segment ends inside a record after {read} bytes"
  | .envelope error => error.message

/-- Why an operation on a log fails. -/
inductive LogError where
  /-- The disk refuses. -/
  | disk (error : DiskError)
  /-- The record at `offset` of a segment cannot be replayed. -/
  | corrupt (segment : String) (offset : Nat) (reason : Corruption)
  /-- The message cannot be encoded. -/
  | codec (error : CodecError)
  /-- The envelope is longer than records may be. -/
  | recordTooLarge (size max : Nat)
  /-- The log is closed. -/
  | closed
  /-- The configuration is refused. -/
  | config (error : LogConfigError)
deriving DecidableEq, Repr

/-- The error in words. -/
def LogError.message : LogError → String
  | .disk error => "WAL I/O error: " ++ error.message
  | .corrupt segment offset reason =>
    "corrupt WAL segment " ++ Text.quoted segment ++ s!" at offset {offset}: " ++ reason.message
  | .codec error => "message encoding failed: " ++ error.message
  | .recordTooLarge size max => s!"record of {size} bytes exceeds max_record_size {max}"
  | .closed => "WAL is closed"
  | .config error => "invalid WAL configuration: " ++ error.message

end ConsensusCore
