import ConsensusCore.Proofs.Codec.Registration
import ConsensusCore.Proofs.Message.Envelope

/-!
# Variants under any codes

Nothing ties a variant of peer messages to a code: it may be registered under one that belongs
to another variant, under several, or not at all. A message is encoded with what is registered
under its own code, and its envelope names that code, so the very codec that has written the
payload reads it. If this is a codec for another variant it has refused the message before.

* `Assignment.encode_cases`: what becomes of a message, whatever is registered where;
* `assigned_registries`: so a message that can be encoded is read back, also within an input of
  the state machine, where the errors about it are those of the registry for peer messages.
-/

namespace ConsensusCore

open Registry

/-- Variants of peer messages, with the codes and names under which they are to be registered,
    one after the other. -/
abbrev Assignment := List (UInt8 × String × PeerMessage.Variant)

/-- The codecs that are registered. -/
def Assignment.codecs (a : Assignment) : List (UInt8 × Codec PeerMessage) :=
  a.map fun (code, name, v) => (code, v.codec name)

namespace PeerMessage

theorem Variant.codec_name (v : Variant) (name : String) : (v.codec name).name = name := by
  cases v <;> rfl

/-- The codec of a variant takes its own messages only. -/
theorem Variant.codec_encode (v : Variant) (name : String) (m : PeerMessage) :
    (v.codec name).encode m =
      if v = m.variant then .ok m.payload else .error (.variantMismatch name (Coded.code m)) := by
  cases v <;> cases m <;> rfl

end PeerMessage

namespace Assignment

variable {a : Assignment} {r : Registry PeerMessage} {code : UInt8} {name : String}
  {v : PeerMessage.Variant} {codec : Codec PeerMessage}

theorem codes_codecs (a : Assignment) : a.codecs.map (·.1) = a.map (·.1) :=
  List.map_map

theorem mem_codecs :
    (code, codec) ∈ a.codecs ↔ ∃ name v, (code, name, v) ∈ a ∧ v.codec name = codec := by
  simp [codecs]

/-- What a registry has if it could be built. -/
theorem entries_eq (hr : ofList a.codecs = .ok r) : (a.map (·.1)).Nodup ∧ r = ⟨a.codecs⟩ := by
  rw [← codes_codecs]
  exact ofList_eq_ok_iff.1 hr

theorem find?_eq_some (hr : ofList a.codecs = .ok r) (hmem : (code, name, v) ∈ a) :
    r.find? code = some (v.codec name) := by
  obtain ⟨hnodup, rfl⟩ := entries_eq hr
  rw [← codes_codecs] at hnodup
  exact (find?_eq_some_iff (r := ⟨a.codecs⟩) hnodup).2 (mem_codecs.2 ⟨name, v, hmem, rfl⟩)

theorem find?_eq_none (hr : ofList a.codecs = .ok r) (hno : ∀ name v, (code, name, v) ∉ a) :
    r.find? code = none := by
  obtain ⟨-, rfl⟩ := entries_eq hr
  refine find?_eq_none_iff.2 fun hmem => ?_
  rw [codes_codecs] at hmem
  obtain ⟨⟨code, name, v⟩, hin, rfl⟩ := List.mem_map.1 hmem
  exact hno name v hin

/-- What becomes of a message: nothing is registered under its code, or another variant is, or
    its own, and then it is read back. -/
theorem encode_cases (hr : ofList a.codecs = .ok r) (m : PeerMessage) :
    ((∀ name v, (Coded.code m, name, v) ∉ a) ∧
        r.encode m = .error (.unknownVariant (Coded.code m))) ∨
      (∃ name v, (Coded.code m, name, v) ∈ a ∧ v ≠ m.variant ∧
        r.encode m = .error (.variantMismatch name (Coded.code m))) ∨
      ∃ name, (Coded.code m, name, m.variant) ∈ a ∧ r.encode m = .ok m.envelope ∧
        r.decode m.envelope = .ok m := by
  by_cases hno : ∀ name v, (Coded.code m, name, v) ∉ a
  · refine .inl ⟨hno, ?_⟩
    rw [encode, find?_eq_none hr hno]
  · simp only [not_forall, not_not] at hno
    obtain ⟨name, v, hmem⟩ := hno
    have hfind := find?_eq_some hr hmem
    have hencode : r.encode m = ((v.codec name).encode m).map fun payload =>
        envelope.put (Coded.code m, payload) := by
      rw [encode, hfind]
    rw [PeerMessage.Variant.codec_encode] at hencode
    by_cases hv : v = m.variant
    · subst hv
      rw [if_pos rfl] at hencode
      refine .inr (.inr ⟨name, hmem, hencode, ?_⟩)
      rw [PeerMessage.decode_envelope hfind]
      exact m.codec_decode_payload name
    · rw [if_neg hv] at hencode
      exact .inr (.inl ⟨name, v, hmem, hv, hencode⟩)

/-- A registry that could be built has one variant under a code, and one name. -/
theorem unique (hr : ofList a.codecs = .ok r) {x y : String × PeerMessage.Variant}
    (hx : (code, x) ∈ a) (hy : (code, y) ∈ a) : x = y := by
  have hnodup := (entries_eq hr).1
  exact Option.some.inj ((lookup_of_mem hnodup hx).symm.trans (lookup_of_mem hnodup hy))

theorem encode_eq_unknown_iff (hr : ofList a.codecs = .ok r) (m : PeerMessage) :
    r.encode m = .error (.unknownVariant (Coded.code m)) ↔
      ∀ name v, (Coded.code m, name, v) ∉ a := by
  obtain ⟨hno, hencode⟩ | ⟨name, v, hmem, -, hencode⟩ | ⟨name, hmem, hencode, -⟩ :=
    encode_cases hr m
  · exact iff_of_true hencode hno
  · refine iff_of_false (fun h => ?_) fun hno => hno name v hmem
    cases h.symm.trans hencode
  · refine iff_of_false (fun h => ?_) fun hno => hno name m.variant hmem
    cases h.symm.trans hencode

theorem encode_eq_mismatch_iff (hr : ofList a.codecs = .ok r) (m : PeerMessage) (name : String) :
    r.encode m = .error (.variantMismatch name (Coded.code m)) ↔
      ∃ v, v ≠ m.variant ∧ (Coded.code m, name, v) ∈ a := by
  obtain ⟨hno, hencode⟩ | ⟨name', v, hmem, hv, hencode⟩ | ⟨name', hmem, hencode, -⟩ :=
    encode_cases hr m
  · refine iff_of_false (fun h => ?_) fun ⟨v, _, hmem⟩ => hno name v hmem
    cases h.symm.trans hencode
  · constructor
    · intro h
      cases h.symm.trans hencode
      exact ⟨v, hv, hmem⟩
    · rintro ⟨v', -, hmem'⟩
      cases unique hr hmem hmem'
      exact hencode
  · refine iff_of_false (fun h => ?_) fun ⟨v, hv, hmem'⟩ => ?_
    · cases h.symm.trans hencode
    · cases unique hr hmem hmem'
      exact hv rfl

theorem encode_eq_ok_iff (hr : ofList a.codecs = .ok r) (m : PeerMessage) :
    r.encode m = .ok m.envelope ↔ ∃ name, (Coded.code m, name, m.variant) ∈ a := by
  obtain ⟨hno, hencode⟩ | ⟨name, v, hmem, hv, hencode⟩ | ⟨name, hmem, hencode, -⟩ :=
    encode_cases hr m
  · refine iff_of_false (fun h => ?_) fun ⟨name, hmem⟩ => hno name m.variant hmem
    cases h.symm.trans hencode
  · refine iff_of_false (fun h => ?_) fun ⟨name', hmem'⟩ => ?_
    · cases h.symm.trans hencode
    · cases unique hr hmem hmem'
      exact hv rfl
  · exact iff_of_true hencode ⟨name, hmem⟩

/-- Whatever is encoded is the envelope of the message, and is read back. -/
theorem decode_of_encode (hr : ofList a.codecs = .ok r) {m : PeerMessage} {bs : Bytes}
    (hencode : r.encode m = .ok bs) : bs = m.envelope ∧ r.decode m.envelope = .ok m := by
  obtain ⟨-, h⟩ | ⟨name, v, -, -, h⟩ | ⟨name, -, h, hdecode⟩ := encode_cases hr m
  · cases hencode.symm.trans h
  · cases hencode.symm.trans h
  · exact ⟨Except.ok.inj (hencode.symm.trans h), hdecode⟩

theorem decode_of_encode_inputs (hr : ofList a.codecs = .ok r) {m : Input} {bs : Bytes}
    (hencode : (inputs r).encode m = .ok bs) : (inputs r).decode bs = .ok m := by
  -- only an input with a peer message depends on the registry inside
  have hinner : ∀ p, m = .message p → r.encode p.message = .ok p.message.envelope ∧
      r.decode p.message.envelope = .ok p.message := by
    rintro p rfl
    rw [encode_inputs_message] at hencode
    cases hnested : r.encode p.message with
    | error e =>
      rw [hnested] at hencode
      cases hencode
    | ok nested =>
      obtain ⟨rfl, hdecode⟩ := decode_of_encode hr hnested
      exact ⟨rfl, hdecode⟩
  have henvelope := encode_inputs_of fun p hp => (hinner p hp).1
  obtain rfl : bs = m.envelope := Except.ok.inj (hencode.symm.trans henvelope)
  exact decode_inputs_of fun p hp => (hinner p hp).2

end Assignment

/-- An input with a peer message fails to be encoded if, and as, its message does. -/
theorem Registry.encode_inputs_eq_error_iff {r : Registry PeerMessage} {m : PeerInput}
    {e : CodecError} :
    (inputs r).encode (.message m) = .error e ↔ r.encode m.message = .error e := by
  rw [encode_inputs_message]
  cases r.encode m.message with
  | error e' => exact Iff.rfl
  | ok nested => exact iff_of_false (by rintro ⟨⟩) (by rintro ⟨⟩)

/-- Whatever codes and names variants are registered under, one after the other: the registry
    is not built exactly if a code is used twice, and what is told is the first that is, with
    the name that it was used for. A registry that is built encodes a message unless nothing is
    registered under the code of the message, or another variant is, and says which; and it
    reads back whatever it has encoded. So does the registry of inputs around it, which is always
    built, and fails on a peer message exactly when, and as, the registry inside does. -/
theorem assigned_registries (a : Assignment) :
    (∀ e, ofList a.codecs = .error e ↔ ∃ before code name v after existing v',
        a = before ++ (code, name, v) :: after ∧ (before.map (·.1)).Nodup ∧
          (code, existing, v') ∈ before ∧ e = .duplicateCode code existing) ∧
      ((∃ r, ofList a.codecs = .ok r) ↔ (a.map (·.1)).Nodup) ∧
      ∀ r, ofList a.codecs = .ok r →
        (∀ m : PeerMessage,
          (r.encode m = .error (.unknownVariant (Coded.code m)) ↔
            ∀ name v, (Coded.code m, name, v) ∉ a) ∧
          (∀ name, r.encode m = .error (.variantMismatch name (Coded.code m)) ↔
            ∃ v, v ≠ m.variant ∧ (Coded.code m, name, v) ∈ a) ∧
          ((∃ bs, r.encode m = .ok bs) ↔ ∃ name, (Coded.code m, name, m.variant) ∈ a) ∧
          ∀ bs, r.encode m = .ok bs → r.decode bs = .ok m) ∧
        ofList (inputs r).entries = .ok (inputs r) ∧
        (∀ m e, (inputs r).encode (.message m) = .error e ↔ r.encode m.message = .error e) ∧
        ∀ m bs, (inputs r).encode m = .ok bs → (inputs r).decode bs = .ok m := by
  refine ⟨fun e => ?_, ?_, fun r hr => ⟨fun m => ⟨Assignment.encode_eq_unknown_iff hr m,
    Assignment.encode_eq_mismatch_iff hr m, ?_, fun bs hencode => ?_⟩, rfl,
    fun m e => encode_inputs_eq_error_iff, fun m bs => Assignment.decode_of_encode_inputs hr⟩⟩
  · rw [ofList_eq_error_iff]
    constructor
    · rintro ⟨before, code, codec, after, existing, hcodecs, hnodup, hmem, rfl⟩
      obtain ⟨before, rest, rfl, rfl, hrest⟩ := List.map_eq_append_iff.1 hcodecs
      obtain ⟨⟨code', name, v⟩, after, rfl, hhead, rfl⟩ := List.map_eq_cons_iff.1 hrest
      cases hhead
      obtain ⟨earlier, v', hmem', rfl⟩ := Assignment.mem_codecs.1 hmem
      rw [← Assignment.codecs, Assignment.codes_codecs] at hnodup
      exact ⟨before, code, name, v, after, earlier, v', rfl, hnodup, hmem', by
        rw [PeerMessage.Variant.codec_name]⟩
    · rintro ⟨before, code, name, v, after, earlier, v', rfl, hnodup, hmem, rfl⟩
      refine ⟨Assignment.codecs before, code, v.codec name, Assignment.codecs after,
        v'.codec earlier, List.map_append, ?_, Assignment.mem_codecs.2 ⟨_, _, hmem, rfl⟩, ?_⟩
      · rwa [Assignment.codes_codecs]
      · rw [PeerMessage.Variant.codec_name]
  · rw [← Assignment.codes_codecs]
    exact ⟨fun ⟨r, hr⟩ => (ofList_eq_ok_iff.1 hr).1, fun h => ⟨_, ofList_of_nodup h⟩⟩
  · rw [← Assignment.encode_eq_ok_iff hr]
    exact ⟨fun ⟨bs, hencode⟩ => (Assignment.decode_of_encode hr hencode).1 ▸ hencode,
      fun h => ⟨_, h⟩⟩
  · obtain ⟨rfl, hdecode⟩ := Assignment.decode_of_encode hr hencode
    exact hdecode

/-- Two variants have changed places, one has its own code, and the first code is used again. -/
theorem assigned_registries_swapped :
    let a : Assignment :=
      [(4, "has_vote", .hasVote), (2, "vote", .vote), (6, "block", .getProposalBlock)]
    let hasVote : PeerMessage := .hasVote ⟨100, 1, .prevote, 4⟩
    let getBlock : PeerMessage := .getProposalBlock ⟨.replicate 32 7⟩
    ofList (Assignment.codecs (a ++ [(4, "again", .hasVote)])) =
        .error (.duplicateCode 4 "has_vote") ∧
      ∃ r, ofList a.codecs = .ok r ∧
        r.encode hasVote = .error (.variantMismatch "vote" 2) ∧
        r.encode (.proposalBlock ⟨[], by decide⟩) = .error (.unknownVariant 7) ∧
        (∃ bs, r.encode getBlock = .ok bs ∧ r.decode bs = .ok getBlock) ∧
        ∀ peer, (inputs r).encode (.message ⟨peer, hasVote⟩) =
          .error (.variantMismatch "vote" 2) := by
  intro a hasVote getBlock
  have hrepeated := ((assigned_registries (a ++ [(4, "again", .hasVote)])).1
    (.duplicateCode 4 "has_vote")).2 ⟨a, 4, "again", .hasVote, [], "has_vote", .hasVote, rfl,
      by decide, by decide, rfl⟩
  obtain ⟨-, hbuilt, hsafe⟩ := assigned_registries a
  obtain ⟨r, hr⟩ := hbuilt.2 (by decide)
  obtain ⟨hmessages, -, hinputs, -⟩ := hsafe r hr
  have hmismatch : r.encode hasVote = .error (.variantMismatch "vote" 2) :=
    ((hmessages hasVote).2.1 "vote").2 ⟨.vote, by decide, by decide⟩
  have hunknown : r.encode (.proposalBlock ⟨[], by decide⟩) = .error (.unknownVariant 7) :=
    (hmessages (.proposalBlock ⟨[], by decide⟩)).1.2 fun name v => by
      simp [a, Coded.code, PeerMessage.variant, PeerMessage.Variant.code]
  obtain ⟨-, -, hencodes, hdecodes⟩ := hmessages getBlock
  obtain ⟨bs, hbs⟩ := hencodes.2 ⟨"block", by decide⟩
  exact ⟨hrepeated, r, hr, hmismatch, hunknown, ⟨bs, hbs, hdecodes bs hbs⟩,
    fun peer => (hinputs ⟨peer, hasVote⟩ _).2 hmismatch⟩

end ConsensusCore
