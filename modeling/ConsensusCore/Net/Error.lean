import ConsensusCore.Codec.Registry

/-!
# Errors of the network

Why a message cannot be sent or taken.
-/

namespace ConsensusCore

/-- Why no connection comes about. -/
inductive LinkError where
  /-- Nobody accepts connections at the address. -/
  | refused
  /-- There is no way to the address. -/
  | unreachable
deriving DecidableEq, Repr

/-- The error in words, with the number that the system has for it. -/
def LinkError.message : LinkError → String
  | .refused => "Connection refused (os error 111)"
  | .unreachable => "Network is unreachable (os error 101)"

/-- Why an operation on the network fails. -/
inductive NetError where
  /-- The message cannot be encoded or decoded. -/
  | codec (error : CodecError)
  /-- The envelope is longer than it may be. -/
  | messageTooLarge (size max : Nat)
  | link (error : LinkError)
  /-- No message will come any more. -/
  | channelClosed
  /-- The message could not be made ready for sending. -/
  | invalidMessage (cause : NetError)
deriving DecidableEq, Repr

/-- The error in words. -/
def NetError.message : NetError → String
  | .codec error => "codec error: " ++ error.message
  | .messageTooLarge size max => s!"message too large: {size} bytes (max {max} bytes)"
  | .link error => "transport error: " ++ error.message
  | .channelClosed => "consensus channel closed"
  | .invalidMessage cause => "invalid message: encode failed: " ++ cause.message

end ConsensusCore
