import ConsensusCore.Net.Frame

/-!
# Connections

The receiving end of a connection: bytes come in pieces of any size, and whenever a
frame is complete its message is taken. A frame with no message in it costs only
itself; a length above the maximum ends the connection.

* `Connection.deliver`: what comes of a stream as a whole;
* `Connection.feedAll`: what comes of it in pieces.
-/

namespace ConsensusCore

/-- The receiving end of a connection. -/
structure Connection where
  /-- What has come and is not a whole frame. -/
  buffer : Bytes
  /-- Whether more is taken. -/
  isOpen : Bool
deriving DecidableEq

namespace Connection

/-- A connection on which nothing has come. -/
def new : Connection := ⟨[], true⟩

/-- The messages in some bodies; the others are dropped. -/
def messages {μ : Type} (r : Registry μ) (bodies : List Bytes) : List μ :=
  bodies.filterMap fun body => (Frame.decode r body).toOption

/-- The messages that come of a stream as a whole. -/
def deliver {μ : Type} (r : Registry μ) (max : Nat) (stream : Bytes) : List μ :=
  messages r (Frame.split max stream).1

/-- Takes a piece of the stream: the bodies of the frames that are now complete. -/
def feed (max : Nat) (c : Connection) (piece : Bytes) : List Bytes × Connection :=
  if c.isOpen then
    match Frame.split max (c.buffer ++ piece) with
    | (bodies, .incomplete rest) => (bodies, { c with buffer := rest })
    | (bodies, .tooLong) => (bodies, ⟨[], false⟩)
  else ([], c)

/-- Takes a stream piece by piece. -/
def feedAll (max : Nat) : Connection → List Bytes → List Bytes × Connection
  | c, [] => ([], c)
  | c, piece :: pieces =>
    let (bodies, c) := c.feed max piece
    let (more, c) := feedAll max c pieces
    (bodies ++ more, c)

end Connection

end ConsensusCore
