import ConsensusCore.Message.Layout

/-!
# The registries of messages

The codec of each variant, and the registries in which each variant has its own
code: one for peer messages (`Registry.peers`), and one for the inputs of the
state machine (`Registry.inputs`), which encodes the peer messages inside its
inputs with a registry of the former kind.

* `ofList_peers`: the registry of peer messages is what registering all their
  variants, one after the other, leads to.
-/

namespace ConsensusCore

/-- The codec of a variant of peer messages, under a name. -/
def PeerMessage.Variant.codec (name : String) : PeerMessage.Variant → Codec PeerMessage
  | .newRoundStep => .ofVariant name .newRoundStep
      (fun | .newRoundStep m => some m | _ => none) .newRoundStep
  | .newValidBlock => .ofVariant name .newValidBlock
      (fun | .newValidBlock m => some m | _ => none) .newValidBlock
  | .hasVote => .ofVariant name .hasVote
      (fun | .hasVote m => some m | _ => none) .hasVote
  | .proposal => .ofVariant name .proposal
      (fun | .proposal m => some m | _ => none) .proposal
  | .vote => .ofVariant name .vote
      (fun | .vote m => some m | _ => none) .vote
  | .voteSetMaj23 => .ofVariant name .voteSetMaj23
      (fun | .voteSetMaj23 m => some m | _ => none) .voteSetMaj23
  | .getProposalBlock => .ofVariant name .getProposalBlock
      (fun | .getProposalBlock m => some m | _ => none) .getProposalBlock
  | .proposalBlock => .ofVariant name .proposalBlock
      (fun | .proposalBlock m => some m | _ => none) .proposalBlock

/-- The codec of inputs that came from a peer, whose message is encoded with the
    registry `peers`. Its errors about that message are passed on. -/
def Codec.peerInput (peers : Registry PeerMessage) : Codec Input where
  name := Input.Variant.message.name
  encode
    | .message m => (peers.encode m.message).map fun nested => Field.peerInput.put (m.peer, nested)
    | other => .error (.variantMismatch Input.Variant.message.name (Coded.code other))
  decode bs :=
    match Codec.decodePayload Input.Variant.message.name Field.peerInput bs with
    | .error e => .error e
    | .ok (peer, nested) => (peers.decode nested).map fun message => .message ⟨peer, message⟩

/-- The codec of timeouts. -/
def Codec.timeout : Codec Input :=
  .ofVariant Input.Variant.timeout.name .timeout (fun | .timeout t => some t | _ => none) .timeout

/-- The codec of the markers that close a height. -/
def Codec.endHeight : Codec Input :=
  .ofVariant Input.Variant.endHeight.name .endHeight
    (fun | .endHeight m => some m | _ => none) .endHeight

namespace Registry

/-- The registry of peer messages, each variant under its own code. -/
def peers : Registry PeerMessage :=
  ⟨PeerMessage.Variant.all.map fun v => (v.code, v.codec v.name)⟩

/-- The registry of inputs, each variant under its own code. -/
def inputs (peers : Registry PeerMessage) : Registry Input :=
  ⟨[(Input.Variant.message.code, Codec.peerInput peers),
    (Input.Variant.timeout.code, Codec.timeout),
    (Input.Variant.endHeight.code, Codec.endHeight)]⟩

theorem ofList_peers : ofList peers.entries = .ok peers := rfl

end Registry

end ConsensusCore
