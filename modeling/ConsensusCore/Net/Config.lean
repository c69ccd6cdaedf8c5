/-!
# Configuration of the network

Where a validator listens for its peers, and what it takes from them.
-/

namespace ConsensusCore

/-- An address on a network: four bytes for the host, and a port. -/
structure Address where
  host : UInt8 × UInt8 × UInt8 × UInt8
  port : UInt16
deriving DecidableEq

namespace Address

/-- The host that stands for all addresses of a machine. -/
def anyHost : UInt8 × UInt8 × UInt8 × UInt8 := (0, 0, 0, 0)

/-- The host that stands for the machine itself. -/
def loopback : UInt8 × UInt8 × UInt8 × UInt8 := (127, 0, 0, 1)

/-- The address in words. -/
def toText (a : Address) : String :=
  let (p, q, r, s) := a.host
  s!"{p}.{q}.{r}.{s}:{a.port}"

end Address

/-- The configuration of the network. -/
structure NetConfig where
  /-- Where connections are accepted; at port 0, any port that is free. -/
  bind : Address
  /-- The time in milliseconds that connecting and sending may take. -/
  messageTimeout : Nat
  /-- The length of the largest envelope. -/
  maxMessageSize : Nat
  /-- How many messages may wait to be taken. -/
  channelSize : Nat
deriving DecidableEq

namespace NetConfig

/-- The configuration of a network. -/
def default : NetConfig := ⟨⟨Address.anyHost, 8900⟩, 5000, 1048576, 10000⟩

/-- The configuration of a network within one machine. -/
def dev : NetConfig := ⟨⟨Address.loopback, 0⟩, 1000, 1048576, 1000⟩

end NetConfig

end ConsensusCore
