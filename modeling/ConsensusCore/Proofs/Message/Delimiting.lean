import ConsensusCore.Proofs.Codec.Stable
import ConsensusCore.Proofs.Message.Envelope

/-!
# Messages cannot be cut or joined

The bytes of a message tell where they end, and so do those of its payload. An envelope that is
cut short, or has more bytes behind it, is no envelope. If the envelope is all right, but holds the
payload of the message cut short or with more bytes behind it, then the payload is refused, under
the name of the variant: whatever is wrong in a nested envelope is not even looked at
(`Codec.peerInput_decode_eq_error`).

* `Registry.delimits_registries`: so it is for every message of either registry.
-/

namespace ConsensusCore

open ConsensusCore.Field

/-! ## Codecs -/

namespace Codec

variable {μ π : Type} {name : String} {f : Field π} {bs : Bytes} {e : Fault}

theorem decodePayload_eq_error (h : f.decode bs = .error e) :
    decodePayload name f bs = .error (.payload name e) := by
  rw [decodePayload, h]
  rfl

theorem ofVariant_decode_eq_error [Coded μ] {project : μ → Option π} {wrap : π → μ}
    (h : f.decode bs = .error e) :
    (ofVariant name f project wrap).decode bs = .error (.payload name e) := by
  simp only [ofVariant, decodePayload_eq_error h, Except.map]

/-- The peer and the length of the nested envelope come before what is in that. -/
theorem peerInput_decode_eq_error {r : Registry PeerMessage}
    (h : Field.peerInput.decode bs = .error e) :
    (peerInput r).decode bs = .error (.payload Input.Variant.message.name e) := by
  simp only [peerInput, decodePayload_eq_error h]

end Codec

/-! ## Registries -/

namespace Registry

variable {μ π : Type} [Coded μ] {r : Registry μ} {m : μ} {f : Field π} {a : π} {name : String}

theorem stable_envelope : envelope.Stable := (exact_word8.stable keeps_word8).pair stable_bytes

/-- A message is not decoded from less than its envelope nor from more, and with less than its
    payload in the envelope or with more it is refused as a payload of its variant. -/
def Delimits (r : Registry μ) (m : μ) : Prop :=
  ∃ payload name,
    r.encode m = .ok (envelope.put (Coded.code m, payload)) ∧
    r.decode (envelope.put (Coded.code m, payload)) = .ok m ∧
    r.nameOf? (Coded.code m) = some name ∧
    (∀ bs : Bytes, bs.EndsElsewhere (envelope.put (Coded.code m, payload)) →
      ∃ fault, r.decode bs = .error (.malformedEnvelope (.layout fault))) ∧
    ∀ p : Bytes, p.length < 2 ^ 64 → p.EndsElsewhere payload →
      ∃ fault, r.decode (envelope.put (Coded.code m, p)) = .error (.payload name fault)

/-- A codec delimits the messages of its variant if its payloads are a field that it reads before
    anything else. -/
theorem delimits_of_field {codec : Codec μ} (hfind : r.find? (Coded.code m) = some codec)
    (hencode : codec.encode m = .ok (f.put a)) (hdecode : codec.decode (f.put a) = .ok m)
    (hrefuse : ∀ bs e, f.decode bs = .error e → codec.decode bs = .error (.payload codec.name e))
    (hlength : (f.put a).length < 2 ^ 64) (hstable : f.Stable) (hkeeps : f.Keeps a) :
    r.Delimits m := by
  have hopen : ∀ p : Bytes, p.length < 2 ^ 64 →
      r.decode (envelope.put (Coded.code m, p)) = codec.decode p := by
    intro p hp
    simp only [decode, (keeps_envelope hp).decode_put, hfind]
  refine ⟨f.put a, codec.name, ?_, ?_, ?_, fun bs hbs => ?_, fun p hp hends => ?_⟩
  · simp only [encode, hfind, hencode, Except.map]
  · rw [hopen _ hlength, hdecode]
  · rw [nameOf?, hfind]
    rfl
  · obtain ⟨e, he⟩ := (keeps_envelope hlength).decode_endsElsewhere stable_envelope hbs
    exact ⟨e, by rw [decode, he]⟩
  · obtain ⟨e, he⟩ := hkeeps.decode_endsElsewhere hstable hends
    exact ⟨e, by rw [hopen p hp, hrefuse p e he]⟩

theorem delimits_of_variant {project : μ → Option π} {wrap : π → μ}
    (hfind : r.find? (Coded.code m) = some (.ofVariant name f project wrap))
    (hproject : project m = some a) (hwrap : wrap a = m) (hlength : (f.put a).length < 2 ^ 64)
    (hstable : f.Stable) (hkeeps : f.Keeps a) : r.Delimits m := by
  refine delimits_of_field hfind ?_ ?_ (fun _ _ => Codec.ofVariant_decode_eq_error) hlength hstable
    hkeeps
  · simp only [Codec.ofVariant, hproject]
  · rw [Codec.decode_ofVariant hkeeps, hwrap]

theorem delimits_peers (m : PeerMessage) : peers.Delimits m := by
  have hlength : m.payload.length < 2 ^ 64 :=
    Nat.lt_of_le_of_lt m.length_payload_le (by decide)
  have hfind := find?_peers m.variant
  cases m with
  | newRoundStep m =>
    exact delimits_of_variant hfind rfl rfl hlength
      (exact_newRoundStep.stable keeps_newRoundStep) (keeps_newRoundStep m)
  | newValidBlock m =>
    exact delimits_of_variant hfind rfl rfl hlength
      (exact_newValidBlock.stable keeps_newValidBlock) (keeps_newValidBlock m)
  | hasVote m =>
    exact delimits_of_variant hfind rfl rfl hlength
      (exact_hasVote.stable keeps_hasVote) (keeps_hasVote m)
  | proposal m =>
    exact delimits_of_variant hfind rfl rfl hlength
      (exact_proposal.stable keeps_proposal) (keeps_proposal m)
  | vote m =>
    exact delimits_of_variant hfind rfl rfl hlength (exact_vote.stable keeps_vote) (keeps_vote m)
  | voteSetMaj23 m =>
    exact delimits_of_variant hfind rfl rfl hlength
      (exact_voteSetMaj23.stable keeps_voteSetMaj23) (keeps_voteSetMaj23 m)
  | getProposalBlock m =>
    exact delimits_of_variant hfind rfl rfl hlength
      (exact_getProposalBlock.stable keeps_getProposalBlock) (keeps_getProposalBlock m)
  | proposalBlock m =>
    exact delimits_of_variant hfind rfl rfl hlength
      (exact_proposalBlock.stable keeps_proposalBlock) (keeps_proposalBlock m)

theorem delimits_inputs (m : Input) : (inputs peers).Delimits m := by
  have hlength := m.length_payload_lt
  cases m with
  | message m =>
    have hnested : m.message.envelope.length < 2 ^ 64 := by
      simp only [Input.payload, peerInput, Field.pair, List.length_append, length_put_bytes]
        at hlength
      omega
    have hkeeps : Field.peerInput.Keeps (m.peer, m.message.envelope) := keeps_peerInput hnested
    have hfind : (inputs peers).find? (Coded.code (Input.message m)) =
        some (Codec.peerInput peers) := rfl
    refine delimits_of_field hfind ?_ ?_ (fun _ _ => Codec.peerInput_decode_eq_error) hlength
      stable_peerInput hkeeps
    · simp only [Codec.peerInput, encode_peers, Except.map]
    · simp only [Codec.peerInput, Codec.decodePayload_put _ hkeeps, decode_peers, Except.map]
  | timeout t => exact delimits_of_variant rfl rfl rfl hlength stable_timeout (keeps_timeout t)
  | endHeight m =>
    exact delimits_of_variant rfl rfl rfl hlength (exact_endHeight.stable keeps_endHeight)
      (keeps_endHeight m)

/-- Every message of either registry has an envelope with its payload, which is decoded to the
    message. No proper beginning of the envelope is one, nor is the envelope with more bytes behind
    it. An envelope with the same code around a proper beginning of the payload, or around the
    payload with more bytes behind it, is refused with an error about the payload that tells the
    name under which the variant is registered. -/
theorem delimits_registries :
    (∀ m : PeerMessage, peers.Delimits m) ∧ ∀ m : Input, (inputs peers).Delimits m :=
  ⟨delimits_peers, delimits_inputs⟩

end Registry

end ConsensusCore
