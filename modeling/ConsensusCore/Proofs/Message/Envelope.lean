import ConsensusCore.Message.Registries
import ConsensusCore.Proofs.Codec.Field

/-!
# Envelopes read back

With each variant under its own code, every message has an envelope, which can be
written down without a registry (`PeerMessage.envelope`, `Input.envelope`), and the
registries encode to that envelope and decode it to the message again.

What there is to it beyond the fields of a payload are lengths: an envelope has the
length of its payload in 64 bits, and the payload of a peer message inside an input
has that of a whole envelope. A payload is not much longer than the blob in it.

* `decode_encode_registries`: decoding gives back every message that was encoded.
-/

namespace ConsensusCore

open ConsensusCore.Field

theorem Registry.keeps_envelope {code : UInt8} {payload : Bytes} (h : payload.length < 2 ^ 64) :
    envelope.Keeps (code, payload) :=
  (keeps_word8 code).pair (keeps_bytes h)

theorem Registry.length_put_envelope (code : UInt8) (payload : Bytes) :
    (envelope.put (code, payload)).length = 9 + payload.length := by
  simp only [envelope, Field.pair, List.length_append, length_put_bytes, word8, number, Field.map,
    LittleEndian.length_toBytes]
  omega

theorem Codec.decodePayload_put {π : Type} {f : Field π} {a : π} (name : String)
    (h : f.Keeps a) : decodePayload name f (f.put a) = .ok a := by
  rw [decodePayload, h.decode_put]
  rfl

theorem Codec.decode_ofVariant {μ π : Type} [Coded μ] {name : String} {f : Field π}
    {project : μ → Option π} {wrap : π → μ} {a : π} (h : f.Keeps a) :
    (ofVariant name f project wrap).decode (f.put a) = .ok (wrap a) := by
  simp only [ofVariant, decodePayload_put name h, Except.map]

/-! ## Peer messages -/

namespace PeerMessage

/-- The payload of a message. -/
def payload : PeerMessage → Bytes
  | newRoundStep m => Field.newRoundStep.put m
  | newValidBlock m => Field.newValidBlock.put m
  | hasVote m => Field.hasVote.put m
  | proposal m => Field.proposal.put m
  | vote m => Field.vote.put m
  | voteSetMaj23 m => Field.voteSetMaj23.put m
  | getProposalBlock m => Field.getProposalBlock.put m
  | proposalBlock m => Field.proposalBlock.put m

/-- The code and the payload of a message. -/
def envelope (m : PeerMessage) : Bytes := Registry.envelope.put (m.variant.code, m.payload)

/-- Under whatever name the variant of a message is registered, its codec reads the payload back. -/
theorem codec_decode_payload (m : PeerMessage) (name : String) :
    (m.variant.codec name).decode m.payload = .ok m := by
  cases m with
  | newRoundStep m => exact Codec.decode_ofVariant (keeps_newRoundStep m)
  | newValidBlock m => exact Codec.decode_ofVariant (keeps_newValidBlock m)
  | hasVote m => exact Codec.decode_ofVariant (keeps_hasVote m)
  | proposal m => exact Codec.decode_ofVariant (keeps_proposal m)
  | vote m => exact Codec.decode_ofVariant (keeps_vote m)
  | voteSetMaj23 m => exact Codec.decode_ofVariant (keeps_voteSetMaj23 m)
  | getProposalBlock m => exact Codec.decode_ofVariant (keeps_getProposalBlock m)
  | proposalBlock m => exact Codec.decode_ofVariant (keeps_proposalBlock m)

/-- Beside a blob, a payload has no more than 128 bytes. -/
theorem length_payload_le (m : PeerMessage) : m.payload.length ≤ 128 + Blob.limit := by
  cases m with
  | newRoundStep m =>
    exact Within.mono (Within.map ((within_number 8).map.pair ((within_number 4).map.pair
      ((within_choice _ _).pair ((within_number 8).map.pair (within_number 4).map.optional)))))
      (by decide) m
  | newValidBlock m =>
    exact Within.mono (Within.map ((within_number 8).map.pair ((within_number 4).map.pair
      ((within_fixedBytes 32).pair within_bool)))) (by decide) m
  | hasVote m =>
    exact Within.mono (Within.map ((within_number 8).map.pair ((within_number 4).map.pair
      ((within_choice _ _).pair (within_number 4).map)))) (by decide) m
  | proposal m =>
    exact Within.mono (Within.map ((within_number 8).map.pair ((within_number 4).map.pair
      ((within_number 4).map.optional.pair ((within_fixedBytes 32).pair
      ((within_number 8).map.map.pair ((within_fixedBytes 32).pair within_blob)))))))
      (by decide) m
  | vote m =>
    exact Within.mono (Within.map ((within_choice _ _).pair ((within_number 8).map.pair
      ((within_number 4).map.pair ((within_fixedBytes 32).optional.pair
      ((within_number 8).map.map.pair ((within_fixedBytes 32).pair
      ((within_number 4).map.pair within_blob)))))))) (by decide) m
  | voteSetMaj23 m =>
    exact Within.mono (Within.map ((within_number 8).map.pair ((within_number 4).map.pair
      ((within_choice _ _).pair (within_fixedBytes 32))))) (by decide) m
  | getProposalBlock m => exact Within.mono (within_fixedBytes 32).map (by decide) m
  | proposalBlock m => exact Within.mono within_blob.map (by decide) m

/-- An envelope is decoded with what is registered under the code of its message. -/
theorem decode_envelope {m : PeerMessage} {r : Registry PeerMessage} {codec : Codec PeerMessage}
    (hfind : r.find? m.variant.code = some codec) : r.decode m.envelope = codec.decode m.payload := by
  have h : m.payload.length < 2 ^ 64 := Nat.lt_of_le_of_lt m.length_payload_le (by decide)
  simp only [Registry.decode, envelope, (Registry.keeps_envelope h).decode_put, hfind]

end PeerMessage

namespace Registry

theorem find?_peers (v : PeerMessage.Variant) : peers.find? v.code = some (v.codec v.name) := by
  cases v <;> rfl

theorem encode_peers (m : PeerMessage) : peers.encode m = .ok m.envelope := by
  cases m <;> rfl

theorem decode_peers (m : PeerMessage) : peers.decode m.envelope = .ok m := by
  rw [PeerMessage.decode_envelope (find?_peers m.variant)]
  exact m.codec_decode_payload m.variant.name

end Registry

/-! ## Inputs -/

namespace Input

/-- The payload of an input; that of a peer message has the envelope of the message. -/
def payload : Input → Bytes
  | message m => Field.peerInput.put (m.peer, m.message.envelope)
  | timeout t => Field.timeout.put t
  | endHeight m => Field.endHeight.put m

/-- The code and the payload of an input. -/
def envelope (m : Input) : Bytes := Registry.envelope.put (m.variant.code, m.payload)

theorem length_payload_lt (m : Input) : m.payload.length < 2 ^ 64 := by
  cases m with
  | message m =>
    have hp := within_peerId m.peer
    have hm := m.message.length_payload_le
    simp only [payload, peerInput, Field.pair, List.length_append, length_put_bytes,
      PeerMessage.envelope, Registry.length_put_envelope]
    simp only [Blob.limit, UInt64.size] at hp hm
    omega
  | timeout t =>
    have h : (Field.timeout.put t).length ≤ 12 + (8 + (4 + 4)) :=
      Within.map (within_duration.pair ((within_number 8).map.pair
        ((within_number 4).map.pair (within_choice _ _)))) t
    simp only [payload]
    omega
  | endHeight m =>
    have h : (Field.endHeight.put m).length ≤ 8 := Within.map (within_number 8).map m
    simp only [payload]
    omega

end Input

namespace Registry

/-- The message of a peer is encoded by the registry inside, whose errors are passed on. -/
theorem encode_inputs_message (r : Registry PeerMessage) (m : PeerInput) :
    (inputs r).encode (.message m) = (r.encode m.message).map fun nested =>
      envelope.put (Input.Variant.message.code, Field.peerInput.put (m.peer, nested)) := by
  change ((r.encode m.message).map _).map _ = _
  cases r.encode m.message <;> rfl

/-- Inputs are encoded as they are by the registry in which each variant has its own code, if
    the registry inside encodes their messages so. -/
theorem encode_inputs_of {r : Registry PeerMessage} {m : Input}
    (hr : ∀ p, m = .message p → r.encode p.message = .ok p.message.envelope) :
    (inputs r).encode m = .ok m.envelope := by
  cases m with
  | message m =>
    rw [encode_inputs_message, hr m rfl]
    rfl
  | timeout t => rfl
  | endHeight m => rfl

/-- What follows the name of a peer is decoded by the registry inside, whatever it is. -/
theorem decode_inputs_message (r : Registry PeerMessage) {peer : PeerId} {nested : Bytes}
    (h : (Field.peerInput.put (peer, nested)).length < 2 ^ 64) :
    (inputs r).decode
        (envelope.put (Input.Variant.message.code, Field.peerInput.put (peer, nested))) =
      (r.decode nested).map fun m => .message ⟨peer, m⟩ := by
  have hnested : nested.length < 2 ^ 64 := by
    simp only [peerInput, Field.pair, List.length_append, length_put_bytes] at h
    omega
  have hpayload := Codec.decodePayload_put Input.Variant.message.name
    (keeps_peerInput (x := (peer, nested)) hnested)
  rw [decode, (keeps_envelope h).decode_put]
  change (Codec.peerInput r).decode _ = _
  simp only [Codec.peerInput, hpayload]

/-- They are read back if the registry inside reads back their messages. -/
theorem decode_inputs_of {r : Registry PeerMessage} {m : Input}
    (hr : ∀ p, m = .message p → r.decode p.message.envelope = .ok p.message) :
    (inputs r).decode m.envelope = .ok m := by
  have hm := m.length_payload_lt
  cases m with
  | message m =>
    refine (decode_inputs_message r hm).trans ?_
    rw [hr m rfl]
    rfl
  | timeout t =>
    simp only [decode, Input.envelope, (keeps_envelope hm).decode_put]
    exact Codec.decode_ofVariant (keeps_timeout t)
  | endHeight m =>
    simp only [decode, Input.envelope, (keeps_envelope hm).decode_put]
    exact Codec.decode_ofVariant (keeps_endHeight m)

theorem encode_inputs (m : Input) : (inputs peers).encode m = .ok m.envelope :=
  encode_inputs_of fun p _ => encode_peers p.message

theorem decode_inputs (m : Input) : (inputs peers).decode m.envelope = .ok m :=
  decode_inputs_of fun p _ => decode_peers p.message

/-- Every peer message, and every input, is encoded by the registry in which each
    variant has its own code, and decoding the bytes gives it back. -/
theorem decode_encode_registries :
    (∀ m : PeerMessage, ∃ bs, peers.encode m = .ok bs ∧ peers.decode bs = .ok m) ∧
      ∀ m : Input, ∃ bs, (inputs peers).encode m = .ok bs ∧ (inputs peers).decode bs = .ok m :=
  ⟨fun m => ⟨m.envelope, encode_peers m, decode_peers m⟩,
    fun m => ⟨m.envelope, encode_inputs m, decode_inputs m⟩⟩

end Registry

end ConsensusCore
