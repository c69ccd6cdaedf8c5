import ConsensusCore.Net.Connection

/-!
# Exchanges

Validators that listen for each other, known by numbers, and the connections
between them, known by names: a setting in which messages, or any bytes, are sent
to them. A message sent by itself has a connection of its own.

A name can be used again when the connection that had it is gone. So connections are
numbered as well, in the order in which they come about, and a listener is told with
each message on which of them it came.

A number without a listener stands for an address where nobody listens. Where the
network is down no address can be reached.
-/

namespace ConsensusCore

/-- A message that has come to a listener. -/
structure InboundMessage (μ : Type) where
  message : μ
  /-- The number of the connection on which it came. -/
  source : Nat

/-- A validator that listens. -/
structure Listener (μ : Type) where
  /-- Whether new connections are accepted. -/
  accepting : Bool
  /-- The messages that have come, and not been taken. -/
  inbound : List (InboundMessage μ)

/-- A connection to a listener. -/
structure Link where
  number : Nat
  /-- The number of the listener. -/
  target : Nat
  receiver : Connection

/-- Listeners of one registry, and the connections to them. -/
structure Exchange (μ : Type) where
  /-- Whether addresses can be reached at all. -/
  reachable : Bool
  registry : Registry μ
  /-- The length of the largest envelope that listeners take. -/
  maxMessageSize : Nat
  listeners : List (Listener μ)
  /-- The connections with their names. -/
  connections : List (String × Link)
  /-- The number of the next connection. -/
  nextConnection : Nat

/-- What is done on an exchange. -/
inductive ExchangeAction (μ : Type) where
  | connect (id : String) (target : Nat)
  /-- Sends any bytes on a connection. -/
  | sendBytes (id : String) (bs : Bytes)
  | sendOn (id : String) (m : μ) (max : Nat)
  | close (id : String)
  | send (target : Nat) (m : μ) (max : Nat)
  | broadcast (peers : List Nat) (m : μ) (max : Nat)
  /-- Takes the next message. -/
  | receive (target : Nat)
  /-- Takes all messages. -/
  | drain (target : Nat)
  /-- Stops to accept connections. -/
  | shutdown (target : Nat)

/-- What an action comes to. -/
inductive ExchangeAnswer (μ : Type) where
  | done
  | failed (error : NetError)
  | message (m : μ)
  | messages (ms : List μ)
  /-- There is no message. -/
  | nothing
  /-- The peers that a broadcast did not reach. -/
  | failures (peers : List (Nat × NetError))
  /-- There is no such connection. -/
  | noConnection

namespace Exchange

variable {μ : Type}

/-- An exchange with so many listeners. -/
def new (reachable : Bool) (registry : Registry μ) (maxMessageSize listeners : Nat) :
    Exchange μ :=
  ⟨reachable, registry, maxMessageSize, List.replicate listeners ⟨true, []⟩, [], 0⟩

/-- Whether a connection to a number comes about. -/
def link (x : Exchange μ) (target : Nat) : Except LinkError Unit :=
  if !x.reachable then .error .unreachable
  else
    match x.listeners[target]? with
    | some l => if l.accepting then .ok () else .error .refused
    | none => .error .refused

/-- The exchange after some bodies have come to a listener on a connection. -/
def arrive (x : Exchange μ) (source target : Nat) (bodies : List Bytes) : Exchange μ :=
  let arrivals := (Connection.messages x.registry bodies).map (⟨·, source⟩)
  { x with
    listeners := x.listeners.modify target fun l => { l with inbound := l.inbound ++ arrivals } }

/-- Sends bytes on a connection of their own. -/
def sendAlone (x : Exchange μ) (target : Nat) (bs : Bytes) : Except LinkError (Exchange μ) :=
  (x.link target).map fun _ =>
    let (bodies, _) := Connection.new.feed x.maxMessageSize bs
    { x with nextConnection := x.nextConnection + 1 }.arrive x.nextConnection target bodies

/-- Sends bytes on a connection. -/
def sendAlong (x : Exchange μ) (id : String) (bs : Bytes) : Option (Exchange μ) :=
  (x.connections.lookup id).map fun l =>
    let (bodies, receiver) := l.receiver.feed x.maxMessageSize bs
    let connections := x.connections.map fun e => if e.1 == id then (id, { l with receiver }) else e
    { x with connections }.arrive l.number l.target bodies

/-- Whether a message can still come to a listener. -/
def expects (x : Exchange μ) (target : Nat) : Bool :=
  ((x.listeners[target]?).map (·.accepting)).getD false ||
    x.connections.any fun (_, l) => l.target == target && l.receiver.isOpen

/-- Sends a frame to several peers. -/
def sendEach (x : Exchange μ) (bs : Bytes) : List Nat → List (Nat × NetError) × Exchange μ
  | [] => ([], x)
  | peer :: peers =>
    match x.sendAlone peer bs with
    | .ok x => x.sendEach bs peers
    | .error e =>
      let (failures, x) := x.sendEach bs peers
      ((peer, .link e) :: failures, x)

/-- The messages that have come to a listener. -/
def inbound (x : Exchange μ) (target : Nat) : List (InboundMessage μ) :=
  ((x.listeners[target]?).map (·.inbound)).getD []

/-- The exchange with other messages at a listener. -/
def setInbound (x : Exchange μ) (target : Nat) (inbound : List (InboundMessage μ)) : Exchange μ :=
  { x with listeners := x.listeners.modify target fun l => { l with inbound } }

/-- Carries out an action. -/
def run [Coded μ] (x : Exchange μ) : ExchangeAction μ → ExchangeAnswer μ × Exchange μ
  | .connect id target =>
    match x.link target with
    | .ok () =>
      let others := x.connections.filter fun e => !(e.1 == id)
      (.done, { x with
        connections := others ++ [(id, ⟨x.nextConnection, target, .new⟩)]
        nextConnection := x.nextConnection + 1 })
    | .error e => (.failed (.link e), x)
  | .sendBytes id bs =>
    match x.sendAlong id bs with
    | some x => (.done, x)
    | none => (.noConnection, x)
  | .sendOn id m max =>
    match x.connections.lookup id, Frame.encode x.registry max m with
    | none, _ => (.noConnection, x)
    | some _, .error e => (.failed e, x)
    | some _, .ok bs => (.done, (x.sendAlong id bs).getD x)
  | .close id =>
    match x.connections.lookup id with
    | some _ =>
      (.done, { x with connections := x.connections.filter fun e => !(e.1 == id) })
    | none => (.noConnection, x)
  | .send target m max =>
    match Frame.encode x.registry max m with
    | .error e => (.failed e, x)
    | .ok bs =>
      match x.sendAlone target bs with
      | .ok x => (.done, x)
      | .error e => (.failed (.link e), x)
  | .broadcast peers m max =>
    match Frame.encode x.registry max m with
    | .error e => (.failures (peers.map fun peer => (peer, .invalidMessage e)), x)
    | .ok bs =>
      let (failures, x) := x.sendEach bs peers
      (.failures failures, x)
  | .receive target =>
    match x.inbound target with
    | a :: rest => (.message a.message, x.setInbound target rest)
    | [] => if x.expects target then (.nothing, x) else (.failed .channelClosed, x)
  | .drain target => (.messages ((x.inbound target).map (·.message)), x.setInbound target [])
  | .shutdown target =>
    (.done, { x with listeners := x.listeners.modify target fun l => { l with accepting := false } })

end Exchange

end ConsensusCore
