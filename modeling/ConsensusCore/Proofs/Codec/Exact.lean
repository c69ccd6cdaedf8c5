import ConsensusCore.Proofs.Codec.Field

/-!
# Fields accept nothing but what they write

A field is *exact* if the bytes that it reads a value from are those that it writes of the
value (`Field.Exact`): no second way to write a truth value, a tag, an index, a length or a
text is accepted. Fields made of exact ones are exact, so that the layouts of payloads are.

The one field that is not exact is that of a duration. It takes any number of nanoseconds
and carries whole seconds over (`duration_get_iff`, `ofParts?_eq_some_iff`), so that the layout
of a timeout fixes its bytes only up to that (`timeout_decode_iff`).
-/

namespace ConsensusCore.Field

variable {α β : Type} {f : Field α} {g : Field β} {a : α} {bs rest : Bytes}

/-- The field reads a value off the front of just the bytes that it writes of it. -/
def Exact (f : Field α) : Prop := ∀ bs a rest, f.get bs = .ok (a, rest) → bs = f.put a ++ rest

/-- Decoding leaves no bytes. -/
theorem get_of_decode (h : f.decode bs = .ok a) : f.get bs = .ok (a, []) := by
  rw [Field.decode] at h
  split at h
  · next hget =>
    cases h
    exact hget
  · cases h
  · cases h

theorem Exact.eq_put (hf : f.Exact) (h : f.decode bs = .ok a) : bs = f.put a := by
  rw [hf _ _ _ (get_of_decode h), List.append_nil]

/-! ## Composition -/

theorem Exact.map {forth : α → β} {back : β → α} (hf : f.Exact)
    (hback : ∀ a, back (forth a) = a) : (f.map forth back).Exact := by
  intro bs b rest h
  simp only [Field.map] at h
  split at h
  · next a rest' hget =>
    cases h
    simp only [Field.map, hback]
    exact hf _ _ _ hget
  · cases h

theorem Exact.pair (hf : f.Exact) (hg : g.Exact) : (f.pair g).Exact := by
  rintro bs ⟨a, b⟩ rest h
  simp only [Field.pair] at h
  split at h
  · cases h
  · next hfget =>
    split at h
    · cases h
    · next hgget =>
      cases h
      simp only [Field.pair, List.append_assoc]
      rw [hf _ _ _ hfget, hg _ _ _ hgget]

theorem pair_get {b : β} {rest' : Bytes} (hf : f.get bs = .ok (a, rest))
    (hg : g.get rest = .ok (b, rest')) : (f.pair g).get bs = .ok ((a, b), rest') := by
  simp only [Field.pair, hf, hg]

/-! ## Numbers -/

theorem getNumber_eq_ok {w n : Nat} (h : getNumber w bs = .ok (n, rest)) :
    bs = LittleEndian.toBytes w n ++ rest ∧ n < 256 ^ w := by
  rw [getNumber] at h
  split at h
  · next front rest' hsplit =>
    cases h
    obtain ⟨rfl, rfl⟩ := Bytes.eq_append_of_splitExactly hsplit
    exact ⟨by rw [LittleEndian.toBytes_ofBytes], LittleEndian.ofBytes_lt front⟩
  · cases h

/-- A word is exact if every number that fits its width is that of a word. -/
theorem exact_word {w : Nat} {forth : Nat → α} {back : α → Nat}
    (hback : ∀ n, n < 256 ^ w → back (forth n) = n) : ((number w).map forth back).Exact := by
  intro bs a rest h
  simp only [Field.map, number] at h
  split at h
  · next n rest' hget =>
    cases h
    obtain ⟨hbs, hlt⟩ := getNumber_eq_ok hget
    simp only [Field.map, number, hback n hlt]
    exact hbs
  · cases h

theorem exact_word8 : word8.Exact := exact_word fun _ h => UInt8.toNat_ofNat_of_lt' h

theorem exact_word32 : word32.Exact := exact_word fun _ h => UInt32.toNat_ofNat_of_lt' h

theorem exact_word64 : word64.Exact := exact_word fun _ h => UInt64.toNat_ofNat_of_lt' h

theorem exact_int64 : int64.Exact := exact_word64.map UInt64.toUInt64_toInt64

/-! ## Alternatives -/

theorem word8_get_eq_ok {n : UInt8} (h : word8.get bs = .ok (n, rest)) : bs = n :: rest := by
  have hbs := exact_word8 _ _ _ h
  simpa [word8, number, Field.map, LittleEndian.toBytes] using hbs

theorem exact_bool : bool.Exact := by
  intro bs b rest h
  simp only [bool] at h
  split at h
  · cases h
  · next n rest' hget =>
    rw [word8_get_eq_ok hget]
    split at h
    · next h0 => cases h; simp [bool, h0]
    · split at h
      · next h1 => cases h; simp [bool, h1]
      · cases h

theorem Exact.optional (hf : f.Exact) : (optional f).Exact := by
  intro bs o rest h
  simp only [Field.optional] at h
  split at h
  · cases h
  · next n rest' hget =>
    rw [word8_get_eq_ok hget]
    split at h
    · next h0 => cases h; simp [Field.optional, h0]
    · split at h
      · next h1 =>
        split at h
        · next hfget =>
          cases h
          simp [Field.optional, h1, hf _ _ _ hfget]
        · cases h
      · cases h

/-- A choice is exact if no alternative is listed twice. -/
theorem exact_choice {all : List α} {index : α → Nat}
    (hindex : ∀ i a, all[i]? = some a → index a = i) : (choice all index).Exact := by
  intro bs a rest h
  simp only [choice] at h
  split at h
  · cases h
  · next n rest' hget =>
    split at h
    · next ha =>
      cases h
      simp only [choice, hindex n _ ha]
      exact (getNumber_eq_ok hget).1
    · cases h

theorem exact_step : step.Exact := exact_choice fun _ _ h => Step.index_of_all h

theorem exact_voteType : voteType.Exact := exact_choice fun _ _ h => VoteType.index_of_all h

/-! ## Byte strings -/

theorem exact_fixedBytes (n : Nat) : (fixedBytes n).Exact := by
  intro bs a rest h
  simp only [fixedBytes] at h
  split at h
  · next front rest' hsplit =>
    cases h
    exact (Bytes.eq_append_of_splitExactly hsplit).1
  · cases h

/-- What stands behind its length is as long as that says. -/
theorem eq_put_of_length {n : Nat} {front rest' : Bytes} (hget : getNumber 8 bs = .ok (n, rest'))
    (hsplit : Bytes.splitExactly n rest' = some (front, rest)) : bs = bytes.put front ++ rest := by
  obtain ⟨rfl, rfl⟩ := Bytes.eq_append_of_splitExactly hsplit
  simp only [bytes, List.append_assoc]
  exact (getNumber_eq_ok hget).1

theorem exact_bytes : bytes.Exact := by
  intro bs a rest h
  simp only [bytes] at h
  split at h
  · cases h
  · next hget =>
    split at h
    · next hsplit =>
      cases h
      exact eq_put_of_length hget hsplit
    · cases h

theorem exact_blob : blob.Exact := by
  intro bs b rest h
  simp only [blob] at h
  split at h
  · cases h
  · next front rest' hget =>
    split at h
    · next hblob =>
      cases h
      rw [Blob.ofBytes?] at hblob
      split at hblob
      · cases hblob
        exact exact_bytes _ _ _ hget
      · cases hblob
    · cases h

theorem exact_text : text.Exact := by
  intro bs s rest h
  simp only [text] at h
  split at h
  · cases h
  · next hget =>
    split at h
    · cases h
    · next hsplit =>
      split at h
      · next hdecode =>
        cases h
        rw [Utf8.eq_encode_of_decode hdecode] at hsplit
        exact eq_put_of_length hget hsplit
      · cases h

theorem exact_peerId : peerId.Exact := by
  intro bs p rest h
  simp only [peerId] at h
  split at h
  · cases h
  · next s rest' hget =>
    split at h
    · next hpeer =>
      cases h
      rw [PeerId.ofString?] at hpeer
      split at hpeer
      · cases hpeer
        exact exact_text _ _ _ hget
      · cases hpeer
    · cases h

/-! ## Times -/

/-- Whole seconds among the nanoseconds are carried over, unless that is too much. -/
theorem ofParts?_eq_some_iff {secs : UInt64} {nanos : UInt32} {d : Duration} :
    Duration.ofParts? secs nanos = some d ↔
      d.secs.toNat = secs.toNat + nanos.toNat / nanosPerSecond ∧
        d.nanos.toNat = nanos.toNat % nanosPerSecond := by
  have hmod : nanos.toNat % nanosPerSecond < 2 ^ 32 :=
    Nat.lt_of_le_of_lt (Nat.mod_le _ _) nanos.toNat_lt
  simp only [Duration.ofParts?]
  split
  · next hlt =>
    rw [Option.some.injEq, eq_comm, Duration.mk.injEq, ← UInt64.toNat_inj, ← UInt32.toNat_inj,
      UInt64.toNat_ofNat_of_lt' hlt, UInt32.toNat_ofNat_of_lt' hmod]
  · next hge =>
    have := d.secs.toNat_lt
    simp only [UInt64.size] at hge
    constructor
    · intro h
      cases h
    · rintro ⟨hsecs, -⟩
      omega

theorem isSome_ofParts? {secs : UInt64} {nanos : UInt32} :
    (Duration.ofParts? secs nanos).isSome ↔
      secs.toNat + nanos.toNat / nanosPerSecond < 2 ^ 64 := by
  simp only [Duration.ofParts?]
  split
  · next hlt => exact ⟨fun _ => hlt, fun _ => rfl⟩
  · next hge => exact ⟨fun h => absurd h (by simp), fun h => absurd h hge⟩

theorem duration_get_iff {d : Duration} :
    duration.get bs = .ok (d, rest) ↔
      ∃ secs nanos, bs = word64.put secs ++ word32.put nanos ++ rest ∧
        Duration.ofParts? secs nanos = some d := by
  constructor
  · intro h
    simp only [duration] at h
    split at h
    · cases h
    · next secs nanos rest' hget =>
      split at h
      · next hparts =>
        cases h
        exact ⟨secs, nanos, (exact_word64.pair exact_word32) _ _ _ hget, hparts⟩
      · cases h
  · rintro ⟨secs, nanos, rfl, hparts⟩
    have hget : (word64.pair word32).get (word64.put secs ++ word32.put nanos ++ rest) =
        .ok ((secs, nanos), rest) :=
      (keeps_word64 secs).pair (keeps_word32 nanos) rest
    simp only [duration, hget, hparts]

/-! ## Payloads -/

theorem exact_newRoundStep : newRoundStep.Exact :=
  (exact_word64.pair (exact_word32.pair (exact_step.pair (exact_word64.pair
    exact_word32.optional)))).map fun _ => rfl

theorem exact_newValidBlock : newValidBlock.Exact :=
  (exact_word64.pair (exact_word32.pair ((exact_fixedBytes 32).pair exact_bool))).map fun _ => rfl

theorem exact_hasVote : hasVote.Exact :=
  (exact_word64.pair (exact_word32.pair (exact_voteType.pair exact_word32))).map fun _ => rfl

theorem exact_proposal : proposal.Exact :=
  (exact_word64.pair (exact_word32.pair (exact_word32.optional.pair ((exact_fixedBytes 32).pair
    (exact_int64.pair ((exact_fixedBytes 32).pair exact_blob)))))).map fun _ => rfl

theorem exact_vote : vote.Exact :=
  (exact_voteType.pair (exact_word64.pair (exact_word32.pair ((exact_fixedBytes 32).optional.pair
    (exact_int64.pair ((exact_fixedBytes 32).pair (exact_word32.pair exact_blob))))))).map
    fun _ => rfl

theorem exact_voteSetMaj23 : voteSetMaj23.Exact :=
  (exact_word64.pair (exact_word32.pair (exact_voteType.pair (exact_fixedBytes 32)))).map
    fun _ => rfl

theorem exact_getProposalBlock : getProposalBlock.Exact := (exact_fixedBytes 32).map fun _ => rfl

theorem exact_proposalBlock : proposalBlock.Exact := exact_blob.map fun _ => rfl

theorem exact_peerInput : peerInput.Exact := exact_peerId.pair exact_bytes

theorem exact_endHeight : endHeight.Exact := exact_word64.map fun _ => rfl

/-- All of a timeout but its duration is written in one way only. -/
theorem timeout_decode_iff {t : Timeout} :
    timeout.decode bs = .ok t ↔
      ∃ secs nanos, bs = word64.put secs ++ word32.put nanos ++ roundStep.put t.roundStep ∧
        Duration.ofParts? secs nanos = some t.duration := by
  constructor
  · intro h
    have hget := get_of_decode h
    simp only [timeout, Field.map] at hget
    split at hget
    · next x rest hpair =>
      cases hget
      simp only [Field.pair] at hpair
      split at hpair
      · cases hpair
      · next hduration =>
        split at hpair
        · cases hpair
        · next hrest =>
          cases hpair
          obtain ⟨secs, nanos, rfl, hparts⟩ := duration_get_iff.1 hduration
          refine ⟨secs, nanos, ?_, hparts⟩
          have := (exact_word64.pair (exact_word32.pair exact_step)) _ _ _ hrest
          rw [this, List.append_nil]
          rfl
    · cases hget
  · rintro ⟨secs, nanos, rfl, hparts⟩
    have hduration : duration.get (word64.put secs ++ word32.put nanos ++
        roundStep.put t.roundStep) = .ok (t.duration, roundStep.put t.roundStep) :=
      duration_get_iff.2 ⟨secs, nanos, rfl, hparts⟩
    have hrest := (keeps_word64 t.height).pair ((keeps_word32 t.round).pair (keeps_step t.step)) []
    rw [List.append_nil] at hrest
    simp only [Field.decode, timeout, Field.map, pair_get hduration hrest]

end ConsensusCore.Field
