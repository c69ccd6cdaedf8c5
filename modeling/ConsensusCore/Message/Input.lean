import ConsensusCore.Duration
import ConsensusCore.Message.Peer

/-!
# Inputs of the state machine

The state machine of a validator consumes messages of its peers, timeouts that
have fired, and markers that close a height. All three are recorded before they
are applied, so that replaying them after a crash leads to the same decisions.
-/

namespace ConsensusCore

/-- The name of a peer, of a size that the memory of a machine can hold. -/
structure PeerId where
  text : String
  size_lt : text.utf8ByteSize < Blob.limit
deriving DecidableEq

/-- The name, unless it is too long for a peer. -/
def PeerId.ofString? (s : String) : Option PeerId :=
  if h : s.utf8ByteSize < Blob.limit then some ⟨s, h⟩ else none

/-- A message that came from a peer, or went to it. -/
structure PeerInput where
  peer : PeerId
  message : PeerMessage
deriving DecidableEq

/-- A timeout for a position, scheduled or fired. -/
structure Timeout where
  duration : Duration
  height : UInt64
  round : UInt32
  step : Step
deriving DecidableEq

/-- The position that a timeout is for. -/
def Timeout.roundStep (t : Timeout) : RoundStep := ⟨t.height, t.round, t.step⟩

/-- Marks that all inputs for a height are recorded. -/
structure EndHeight where
  height : UInt64
deriving DecidableEq

/-- An input of the state machine. -/
inductive Input where
  | message (m : PeerInput)
  | timeout (t : Timeout)
  | endHeight (m : EndHeight)
deriving DecidableEq

namespace Input

/-- The variants of inputs, in the order of their codes. -/
inductive Variant where
  | message
  | timeout
  | endHeight
deriving DecidableEq, Repr

namespace Variant

/-- The code of a variant. -/
def code : Variant → UInt8
  | message => 0
  | timeout => 1
  | endHeight => 2

/-- The name of a variant. -/
def name : Variant → String
  | message => "state_machine_message"
  | timeout => "state_machine_timeout"
  | endHeight => "state_machine_end_height"

end Variant

/-- The variant of an input. -/
def variant : Input → Variant
  | message _ => .message
  | timeout _ => .timeout
  | endHeight _ => .endHeight

instance : Coded Input := ⟨fun m => m.variant.code⟩

/-- The height that an input closes. -/
def endHeight? : Input → Option UInt64
  | endHeight m => some m.height
  | _ => none

/-- The position that a timeout is for. -/
def roundStep? : Input → Option RoundStep
  | timeout t => some t.roundStep
  | _ => none

end Input

end ConsensusCore
