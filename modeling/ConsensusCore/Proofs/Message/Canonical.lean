import ConsensusCore.Proofs.Codec.Exact
import ConsensusCore.Proofs.Message.Envelope

/-!
# One envelope for a message

The registries decode nothing but the envelopes that they encode, with one exception.
A timeout may be written with a second or more in its nanoseconds
(`Timeout.CarriedBy`): its whole seconds are carried over, and it is encoded with what
that leaves. A nested envelope is decoded by a registry of its own, which leaves it no
more choice than any other.

* `canonical_registries`: what is decoded is what was encoded, or such a timeout.
-/

namespace ConsensusCore

open ConsensusCore.Field

variable {bs bs' : Bytes}

theorem Registry.exact_envelope : envelope.Exact := exact_word8.pair exact_bytes

/-- What a registry decodes is an envelope whose payload one of its codecs decodes. -/
theorem Registry.decode_eq_ok {μ : Type} {r : Registry μ} {m : μ} (h : r.decode bs = .ok m) :
    ∃ code payload codec, bs = envelope.put (code, payload) ∧ r.find? code = some codec ∧
      codec.decode payload = .ok m := by
  rw [decode] at h
  split at h
  · cases h
  · next code payload henvelope =>
    split at h
    · cases h
    · next codec hfind => exact ⟨code, payload, codec, exact_envelope.eq_put henvelope, hfind, h⟩

theorem Codec.decodePayload_eq_ok {π : Type} {name : String} {f : Field π} {a : π} :
    decodePayload name f bs = .ok a ↔ f.decode bs = .ok a := by
  rw [decodePayload]
  rcases f.decode bs with e | a'
  · constructor
    · rintro ⟨⟩
    · rintro ⟨⟩
  · constructor
    · rintro ⟨⟩
      rfl
    · rintro ⟨⟩
      rfl

theorem Codec.ofVariant_decode_eq_ok {μ π : Type} [Coded μ] {name : String} {f : Field π}
    {project : μ → Option π} {wrap : π → μ} {m : μ}
    (h : (ofVariant name f project wrap).decode bs = .ok m) :
    ∃ a, f.decode bs = .ok a ∧ m = wrap a := by
  cases hpayload : decodePayload name f bs with
  | error e =>
    simp only [ofVariant, hpayload, Except.map] at h
    cases h
  | ok a =>
    simp only [ofVariant, hpayload, Except.map] at h
    cases h
    exact ⟨a, decodePayload_eq_ok.1 hpayload, rfl⟩

theorem Field.Keeps.eq_of_put_eq {α : Type} {f : Field α} {a b : α} (ha : f.Keeps a)
    (hb : f.Keeps b) (h : f.put a = f.put b) : a = b := by
  have hdecode := ha.decode_put
  rw [h, hb.decode_put] at hdecode
  cases hdecode
  rfl

theorem Field.length_put_word64 (n : UInt64) : (word64.put n).length = 8 :=
  LittleEndian.length_toBytes 8 n.toNat

theorem Field.length_put_word32 (n : UInt32) : (word32.put n).length = 4 :=
  LittleEndian.length_toBytes 4 n.toNat

/-! ## Peer messages -/

namespace PeerMessage

/-- The codec of a variant decodes the payloads of its messages only. -/
theorem Variant.codec_decode_eq_ok {name : String} {v : Variant} {m : PeerMessage}
    (h : (v.codec name).decode bs = .ok m) : m.variant = v ∧ bs = m.payload := by
  cases v with
  | newRoundStep =>
    obtain ⟨a, ha, rfl⟩ := Codec.ofVariant_decode_eq_ok h
    exact ⟨rfl, exact_newRoundStep.eq_put ha⟩
  | newValidBlock =>
    obtain ⟨a, ha, rfl⟩ := Codec.ofVariant_decode_eq_ok h
    exact ⟨rfl, exact_newValidBlock.eq_put ha⟩
  | hasVote =>
    obtain ⟨a, ha, rfl⟩ := Codec.ofVariant_decode_eq_ok h
    exact ⟨rfl, exact_hasVote.eq_put ha⟩
  | proposal =>
    obtain ⟨a, ha, rfl⟩ := Codec.ofVariant_decode_eq_ok h
    exact ⟨rfl, exact_proposal.eq_put ha⟩
  | vote =>
    obtain ⟨a, ha, rfl⟩ := Codec.ofVariant_decode_eq_ok h
    exact ⟨rfl, exact_vote.eq_put ha⟩
  | voteSetMaj23 =>
    obtain ⟨a, ha, rfl⟩ := Codec.ofVariant_decode_eq_ok h
    exact ⟨rfl, exact_voteSetMaj23.eq_put ha⟩
  | getProposalBlock =>
    obtain ⟨a, ha, rfl⟩ := Codec.ofVariant_decode_eq_ok h
    exact ⟨rfl, exact_getProposalBlock.eq_put ha⟩
  | proposalBlock =>
    obtain ⟨a, ha, rfl⟩ := Codec.ofVariant_decode_eq_ok h
    exact ⟨rfl, exact_proposalBlock.eq_put ha⟩

end PeerMessage

namespace Registry

/-- Nothing is registered for peer messages but the codecs of their variants. -/
theorem exists_variant_of_find?_peers {code : UInt8} {codec : Codec PeerMessage}
    (h : peers.find? code = some codec) :
    ∃ v : PeerMessage.Variant, code = v.code ∧ codec = v.codec v.name := by
  obtain ⟨l₁, l₂, hentries, -⟩ := List.lookup_eq_some_iff.1 h
  have hmem : (code, codec) ∈ peers.entries := by
    rw [hentries]
    exact List.mem_append_right _ List.mem_cons_self
  obtain ⟨v, -, hv⟩ := List.mem_map.1 hmem
  cases hv
  exact ⟨v, rfl, rfl⟩

theorem eq_envelope_of_decode_peers {m : PeerMessage} (h : peers.decode bs = .ok m) :
    bs = m.envelope := by
  obtain ⟨code, payload, codec, rfl, hfind, hdecode⟩ := decode_eq_ok h
  obtain ⟨v, rfl, rfl⟩ := exists_variant_of_find?_peers hfind
  obtain ⟨rfl, rfl⟩ := PeerMessage.Variant.codec_decode_eq_ok hdecode
  rfl

theorem decode_peers_iff {m : PeerMessage} :
    peers.decode bs = .ok m ↔ peers.encode m = .ok bs := by
  rw [encode_peers, Except.ok.injEq]
  constructor
  · intro h
    exact (eq_envelope_of_decode_peers h).symm
  · rintro rfl
    exact decode_peers m

end Registry

/-! ## Timeouts -/

namespace Timeout

variable {t : Timeout} {secs : UInt64} {nanos : UInt32} {p : RoundStep}

/-- The envelope of a timeout for a position, written as so many seconds and nanoseconds. -/
def envelopeOf (secs : UInt64) (nanos : UInt32) (p : RoundStep) : Bytes :=
  Registry.envelope.put
    (Input.Variant.timeout.code, word64.put secs ++ word32.put nanos ++ Field.roundStep.put p)

/-- The bytes are an envelope of the timeout with a second or more in its nanoseconds; its
    duration is what they come to when whole seconds are carried over. -/
def CarriedBy (t : Timeout) (bs : Bytes) : Prop :=
  ∃ secs nanos, bs = envelopeOf secs nanos t.roundStep ∧ nanosPerSecond ≤ nanos.toNat ∧
    t.duration.secs.toNat = secs.toNat + nanos.toNat / nanosPerSecond ∧
    t.duration.nanos.toNat = nanos.toNat % nanosPerSecond

theorem envelope_eq (t : Timeout) :
    (Input.timeout t).envelope = envelopeOf t.duration.secs t.duration.nanos t.roundStep := by
  simp only [Input.envelope, Input.payload, envelopeOf, Field.timeout, Field.map, Field.pair,
    Field.duration, Field.roundStep, Input.variant, Timeout.roundStep]

theorem length_payload (secs : UInt64) (nanos : UInt32) (p : RoundStep) :
    (word64.put secs ++ word32.put nanos ++ Field.roundStep.put p).length = 28 := by
  simp [Field.roundStep, Field.step, choice, Field.map, Field.pair, length_put_word64,
    length_put_word32, LittleEndian.length_toBytes]

/-- Seconds and nanoseconds are the only bytes of the envelope that depend on them. -/
theorem envelopeOf_eq (secs : UInt64) (nanos : UInt32) (p : RoundStep) :
    envelopeOf secs nanos p = (Input.Variant.timeout.code :: LittleEndian.toBytes 8 28) ++
      (word64.put secs ++ word32.put nanos) ++ Field.roundStep.put p := by
  rw [envelopeOf, Registry.envelope, Field.pair]
  simp only [bytes, length_payload]
  simp [word8, number, Field.map, LittleEndian.toBytes]

/-- What is carried over is written into the same bytes, and differently. -/
theorem CarriedBy.encode (h : t.CarriedBy bs) :
    ∃ bs', (Registry.inputs Registry.peers).encode (.timeout t) = .ok bs' ∧ bs' ≠ bs ∧
      bs'.length = bs.length ∧ bs'.take 9 = bs.take 9 ∧ bs'.drop 21 = bs.drop 21 := by
  obtain ⟨secs, nanos, rfl, hnanos, hsecs, -⟩ := h
  have hcarry : 0 < nanos.toNat / nanosPerSecond := Nat.div_pos hnanos (by decide)
  refine ⟨_, Registry.encode_inputs _, ?_, ?_, ?_, ?_⟩
  · intro heq
    rw [envelope_eq, envelopeOf_eq, envelopeOf_eq, List.append_assoc, List.append_assoc] at heq
    have hfields : (word64.pair word32).put (t.duration.secs, t.duration.nanos) =
        (word64.pair word32).put (secs, nanos) :=
      List.append_cancel_right (List.append_cancel_left heq)
    have hparts := ((keeps_word64 _).pair (keeps_word32 _)).eq_of_put_eq
      ((keeps_word64 _).pair (keeps_word32 _)) hfields
    cases hparts
    omega
  · rw [envelope_eq, envelopeOf_eq, envelopeOf_eq]
    simp only [List.length_append, length_put_word64, length_put_word32]
  · rw [envelope_eq, envelopeOf_eq, envelopeOf_eq, List.append_assoc, List.append_assoc]
    rfl
  · have hlength (secs nanos) : (Input.Variant.timeout.code :: LittleEndian.toBytes 8 28 ++
        (word64.put secs ++ word32.put nanos)).length = 21 := by
      simp only [List.length_append, List.length_cons, LittleEndian.length_toBytes,
        length_put_word64, length_put_word32]
    rw [envelope_eq, envelopeOf_eq, envelopeOf_eq, List.drop_left' (hlength _ _),
      List.drop_left' (hlength _ _)]

/-- Whole seconds among the nanoseconds are carried over, as long as the seconds can be
    counted. -/
theorem exists_carriedBy (p : RoundStep) (hnanos : nanosPerSecond ≤ nanos.toNat)
    (hfit : secs.toNat + nanos.toNat / nanosPerSecond < 2 ^ 64) :
    ∃ t : Timeout, t.roundStep = p ∧ t.CarriedBy (envelopeOf secs nanos p) := by
  obtain ⟨d, hd⟩ := Option.isSome_iff_exists.1 (isSome_ofParts?.2 hfit)
  exact ⟨⟨d, p.height, p.round, p.step⟩, rfl, secs, nanos, rfl, hnanos, ofParts?_eq_some_iff.1 hd⟩

end Timeout

/-! ## Inputs -/

/-- A message of a peer is decoded from its payload only. -/
theorem Codec.peerInput_decode_eq_ok {m : Input}
    (h : (peerInput Registry.peers).decode bs = .ok m) :
    m.variant = .message ∧ bs = m.payload := by
  simp only [peerInput] at h
  split at h
  · cases h
  · next peer nested hpayload =>
    cases hnested : Registry.peers.decode nested with
    | error e =>
      rw [hnested] at h
      cases h
    | ok message =>
      rw [hnested] at h
      cases h
      refine ⟨rfl, ?_⟩
      rw [exact_peerInput.eq_put (decodePayload_eq_ok.1 hpayload),
        Registry.eq_envelope_of_decode_peers hnested]
      rfl

namespace Registry

variable {m : Input} {t : Timeout}

/-- Nothing is registered for inputs but the codecs of their variants. -/
theorem find?_inputs {code : UInt8} {codec : Codec Input}
    (h : (inputs peers).find? code = some codec) :
    (code = Input.Variant.message.code ∧ codec = Codec.peerInput peers) ∨
      (code = Input.Variant.timeout.code ∧ codec = Codec.timeout) ∨
      (code = Input.Variant.endHeight.code ∧ codec = Codec.endHeight) := by
  obtain ⟨l₁, l₂, hentries, -⟩ := List.lookup_eq_some_iff.1 h
  have hmem : (code, codec) ∈ (inputs peers).entries := by
    rw [hentries]
    exact List.mem_append_right _ List.mem_cons_self
  simpa only [inputs, List.mem_cons, List.not_mem_nil, or_false, Prod.mk.injEq] using hmem

theorem decode_envelopeOf {secs : UInt64} {nanos : UInt32}
    (h : Duration.ofParts? secs nanos = some t.duration) :
    (inputs peers).decode (Timeout.envelopeOf secs nanos t.roundStep) = .ok (.timeout t) := by
  have hlength : (word64.put secs ++ word32.put nanos ++
      Field.roundStep.put t.roundStep).length < 2 ^ 64 := by
    rw [Timeout.length_payload]
    decide
  simp only [decode, Timeout.envelopeOf, (keeps_envelope hlength).decode_put]
  change Codec.timeout.decode _ = _
  simp only [Codec.timeout, Codec.ofVariant,
    Codec.decodePayload_eq_ok.2 (timeout_decode_iff.2 ⟨secs, nanos, rfl, h⟩), Except.map]

theorem decode_of_carriedBy (h : t.CarriedBy bs) : (inputs peers).decode bs = .ok (.timeout t) := by
  obtain ⟨secs, nanos, rfl, -, hparts⟩ := h
  exact decode_envelopeOf (ofParts?_eq_some_iff.2 hparts)

/-- With less than a second in its nanoseconds, a timeout is read as it is written. -/
theorem eq_envelope_or_carriedBy {secs : UInt64} {nanos : UInt32}
    (h : Duration.ofParts? secs nanos = some t.duration) :
    Timeout.envelopeOf secs nanos t.roundStep = (Input.timeout t).envelope ∨
      t.CarriedBy (Timeout.envelopeOf secs nanos t.roundStep) := by
  have hparts := ofParts?_eq_some_iff.1 h
  rcases Nat.lt_or_ge nanos.toNat nanosPerSecond with hlt | hge
  · left
    rw [Nat.div_eq_of_lt hlt, Nat.mod_eq_of_lt hlt, Nat.add_zero, UInt64.toNat_inj,
      UInt32.toNat_inj] at hparts
    rw [Timeout.envelope_eq, hparts.1, hparts.2]
  · exact .inr ⟨secs, nanos, rfl, hge, hparts⟩

theorem decode_inputs_iff :
    (inputs peers).decode bs = .ok m ↔
      (inputs peers).encode m = .ok bs ∨ ∃ t, m = .timeout t ∧ t.CarriedBy bs := by
  rw [encode_inputs, Except.ok.injEq]
  constructor
  · intro h
    obtain ⟨code, payload, codec, rfl, hfind, hdecode⟩ := decode_eq_ok h
    rcases find?_inputs hfind with ⟨rfl, rfl⟩ | ⟨rfl, rfl⟩ | ⟨rfl, rfl⟩
    · obtain ⟨hvariant, rfl⟩ := Codec.peerInput_decode_eq_ok hdecode
      left
      rw [Input.envelope, hvariant]
    · obtain ⟨t, ht, rfl⟩ := Codec.ofVariant_decode_eq_ok hdecode
      obtain ⟨secs, nanos, rfl, hparts⟩ := timeout_decode_iff.1 ht
      rcases eq_envelope_or_carriedBy hparts with heq | hcarried
      · exact .inl heq.symm
      · exact .inr ⟨t, rfl, hcarried⟩
    · obtain ⟨a, ha, rfl⟩ := Codec.ofVariant_decode_eq_ok hdecode
      left
      rw [exact_endHeight.eq_put ha]
      rfl
  · rintro (rfl | ⟨t, rfl, hcarried⟩)
    · exact decode_inputs m
    · exact decode_of_carriedBy hcarried

/-- What either registry decodes is what it encodes of the message, so that no two byte
    strings decode to the same message: with the one exception of timeouts with a second or
    more in their nanoseconds. These are decoded, as long as the seconds with what is carried
    over can be counted, and encoded to as many bytes, of which only those of the seconds and
    the nanoseconds differ. -/
theorem canonical_registries :
    (∀ bs m, peers.decode bs = .ok m ↔ peers.encode m = .ok bs) ∧
      (∀ bs bs' m, peers.decode bs = .ok m → peers.decode bs' = .ok m → bs = bs') ∧
      (∀ bs m, (inputs peers).decode bs = .ok m ↔
        (inputs peers).encode m = .ok bs ∨ ∃ t, m = .timeout t ∧ t.CarriedBy bs) ∧
      (∀ bs bs' m, (inputs peers).decode bs = .ok m → (inputs peers).decode bs' = .ok m →
        bs = bs' ∨ ∃ t, m = .timeout t ∧ (t.CarriedBy bs ∨ t.CarriedBy bs')) ∧
      (∀ secs nanos p, nanosPerSecond ≤ nanos.toNat →
        secs.toNat + nanos.toNat / nanosPerSecond < 2 ^ 64 →
          ∃ t : Timeout, t.roundStep = p ∧ t.CarriedBy (Timeout.envelopeOf secs nanos p)) ∧
      ∀ bs t, t.CarriedBy bs → ∃ bs', (inputs peers).encode (.timeout t) = .ok bs' ∧ bs' ≠ bs ∧
        bs'.length = bs.length ∧ bs'.take 9 = bs.take 9 ∧ bs'.drop 21 = bs.drop 21 := by
  refine ⟨fun _ _ => decode_peers_iff, ?_, fun _ _ => decode_inputs_iff, ?_,
    fun _ _ => Timeout.exists_carriedBy, fun _ _ => Timeout.CarriedBy.encode⟩
  · intro bs bs' m h h'
    rw [eq_envelope_of_decode_peers h, eq_envelope_of_decode_peers h']
  · intro bs bs' m h h'
    rcases decode_inputs_iff.1 h with hencode | ⟨t, rfl, hcarried⟩
    · rcases decode_inputs_iff.1 h' with hencode' | ⟨t, rfl, hcarried'⟩
      · rw [hencode, Except.ok.injEq] at hencode'
        exact .inl hencode'
      · exact .inr ⟨t, rfl, .inr hcarried'⟩
    · exact .inr ⟨t, rfl, .inl hcarried⟩

end Registry

end ConsensusCore
