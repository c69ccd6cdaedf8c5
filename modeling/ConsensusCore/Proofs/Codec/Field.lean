import ConsensusCore.Message.Layout
import ConsensusCore.Proofs.Bytes.LittleEndian

/-!
# Fields read back what they write

A field *keeps* a value if it reads the value back off the front of what it has
written of it, whatever follows, and leaves just that (`Field.Keeps`). Fields made
of others keep what those keep, so that the layouts of payloads keep every payload:
no two of their fields have to be told apart by anything but the order they come in.

What varies in length is kept as long as the length fits its 64 bits. Blobs and the
names of peers are short enough for that by their types, and short enough, too, for
what is built around them: a field made of them writes at most so many bytes
(`Field.Within`).
-/

namespace ConsensusCore.Field

variable {α β : Type} {f : Field α} {g : Field β}

/-- The field reads a value back off the front of what it writes of it. -/
def Keeps (f : Field α) (a : α) : Prop := ∀ rest, f.get (f.put a ++ rest) = .ok (a, rest)

/-- The field writes at most `n` bytes. -/
def Within (f : Field α) (n : Nat) : Prop := ∀ a, (f.put a).length ≤ n

theorem Keeps.decode_put {a : α} (h : f.Keeps a) : f.decode (f.put a) = .ok a := by
  have := h []
  rw [List.append_nil] at this
  simp only [Field.decode, this]

/-! ## Composition -/

theorem Keeps.map {forth : α → β} {back : β → α} {b : β} (h : f.Keeps (back b))
    (hb : forth (back b) = b) : (f.map forth back).Keeps b := by
  intro rest
  simp only [Field.map, h rest, hb]

theorem Keeps.pair {a : α} {b : β} (hf : f.Keeps a) (hg : g.Keeps b) :
    (f.pair g).Keeps (a, b) := by
  intro rest
  simp only [Field.pair, List.append_assoc, hf _, hg rest]

theorem Within.map {forth : α → β} {back : β → α} {n : Nat} (h : f.Within n) :
    (f.map forth back).Within n :=
  fun b => h (back b)

theorem Within.pair {m n : Nat} (hf : f.Within m) (hg : g.Within n) :
    (f.pair g).Within (m + n) := by
  rintro ⟨a, b⟩
  simp only [Field.pair, List.length_append]
  exact Nat.add_le_add (hf a) (hg b)

theorem Within.mono {m n : Nat} (h : f.Within m) (hmn : m ≤ n) : f.Within n :=
  fun a => Nat.le_trans (h a) hmn

/-! ## Numbers -/

theorem getNumber_toBytes {w n : Nat} (hn : n < 256 ^ w) (rest : Bytes) :
    getNumber w (LittleEndian.toBytes w n ++ rest) = .ok (n, rest) := by
  have h := Bytes.splitExactly_append (LittleEndian.toBytes w n) rest
  rw [LittleEndian.length_toBytes] at h
  rw [getNumber, h]
  simp only [LittleEndian.ofBytes_toBytes, Nat.mod_eq_of_lt hn]

theorem keeps_number {w n : Nat} (hn : n < 256 ^ w) : (number w).Keeps n :=
  getNumber_toBytes hn

theorem within_number (w : Nat) : (number w).Within w :=
  fun n => Nat.le_of_eq (LittleEndian.length_toBytes w n)

theorem keeps_word8 (n : UInt8) : word8.Keeps n :=
  (keeps_number n.toNat_lt).map UInt8.ofNat_toNat

theorem keeps_word32 (n : UInt32) : word32.Keeps n :=
  (keeps_number n.toNat_lt).map UInt32.ofNat_toNat

theorem keeps_word64 (n : UInt64) : word64.Keeps n :=
  (keeps_number n.toNat_lt).map UInt64.ofNat_toNat

theorem keeps_int64 (n : Int64) : int64.Keeps n :=
  (keeps_word64 n.toUInt64).map (Int64.toInt64_toUInt64 n)

/-! ## Alternatives -/

theorem word8_get_cons (b : UInt8) (bs : Bytes) : word8.get (b :: bs) = .ok (b, bs) := by
  simpa [word8, number, Field.map, LittleEndian.toBytes] using keeps_word8 b bs

theorem keeps_bool (b : Bool) : bool.Keeps b := by
  intro rest
  cases b <;> simp [bool, word8_get_cons]

theorem within_bool : bool.Within 1 := fun _ => Nat.le_refl 1

theorem keeps_none : (optional f).Keeps none := by
  intro rest
  simp [optional, word8_get_cons]

theorem Keeps.some {a : α} (h : f.Keeps a) : (optional f).Keeps (some a) := by
  intro rest
  simp [optional, word8_get_cons, h rest]

theorem keeps_optional (h : ∀ a, f.Keeps a) : ∀ o, (optional f).Keeps o
  | .none => keeps_none
  | .some a => (h a).some

theorem Within.optional {n : Nat} (h : f.Within n) : (optional f).Within (1 + n) := by
  rintro (_ | a)
  · simp [Field.optional]
  · have := h a
    simp only [Field.optional, List.length_cons]
    omega

/-- A choice is kept if the index leads back to it and fits 32 bits. -/
theorem keeps_choice {all : List α} {index : α → Nat} {a : α} (ha : all[index a]? = some a)
    (hlt : index a < 256 ^ 4) : (choice all index).Keeps a := by
  intro rest
  simp only [choice, getNumber_toBytes hlt, ha]

theorem within_choice (all : List α) (index : α → Nat) : (choice all index).Within 4 :=
  fun a => Nat.le_of_eq (LittleEndian.length_toBytes 4 (index a))

theorem keeps_step (s : Step) : step.Keeps s :=
  keeps_choice s.all_index (by cases s <;> decide)

theorem keeps_voteType (v : VoteType) : voteType.Keeps v :=
  keeps_choice v.all_index (by cases v <;> decide)

/-! ## Byte strings -/

theorem keeps_fixedBytes {n : Nat} (a : FixedBytes n) : (fixedBytes n).Keeps a := by
  intro rest
  have h := Bytes.splitExactly_append a.bytes rest
  rw [a.length_eq] at h
  simp only [fixedBytes]
  split
  · next hs =>
    rw [h] at hs
    cases hs
    rfl
  · next hs =>
    rw [h] at hs
    cases hs

theorem within_fixedBytes (n : Nat) : (fixedBytes n).Within n := fun a => Nat.le_of_eq a.length_eq

theorem keeps_bytes {bs : Bytes} (h : bs.length < 2 ^ 64) : bytes.Keeps bs := by
  intro rest
  simp only [bytes, List.append_assoc, getNumber_toBytes (w := 8) h,
    Bytes.splitExactly_append]

theorem length_put_bytes (bs : Bytes) : (bytes.put bs).length = 8 + bs.length := by
  simp [bytes]

/-- Blobs are short enough for their length to fit. -/
theorem keeps_blob (b : Blob) : blob.Keeps b := by
  intro rest
  have hb := b.length_lt
  have h := keeps_bytes (Nat.lt_trans hb (by decide)) rest
  simp only [blob, h, Blob.ofBytes?, hb, dite_true]

theorem within_blob : blob.Within (8 + Blob.limit) := by
  intro b
  have := b.length_lt
  simp only [blob, length_put_bytes]
  omega

theorem keeps_text {s : String} (h : s.utf8ByteSize < 2 ^ 64) : text.Keeps s := by
  intro rest
  have hs : (Utf8.encode s).length < 256 ^ 8 := h
  simp only [text, bytes, List.append_assoc, getNumber_toBytes hs, Bytes.splitExactly_append,
    Utf8.decode_encode]

theorem keeps_peerId (p : PeerId) : peerId.Keeps p := by
  intro rest
  have hp := p.size_lt
  have h := keeps_text (Nat.lt_trans hp (by decide)) rest
  simp only [peerId, h, PeerId.ofString?, hp, dite_true]

theorem within_peerId : peerId.Within (8 + Blob.limit) := by
  intro p
  have := p.size_lt
  simp only [peerId, text, length_put_bytes, Utf8.length_encode]
  omega

/-! ## Times -/

/-- A duration has less than a second in nanoseconds, so nothing is carried over. -/
theorem ofParts?_eq_some (d : Duration) : Duration.ofParts? d.secs d.nanos = some d := by
  have hs := d.secs.toNat_lt
  have hn := d.nanos_lt
  simp only [Duration.ofParts?, Nat.div_eq_of_lt hn, Nat.mod_eq_of_lt hn, Nat.add_zero, hs,
    if_true, UInt64.ofNat_toNat, UInt32.ofNat_toNat]

theorem keeps_duration (d : Duration) : duration.Keeps d := by
  intro rest
  have h := (keeps_word64 d.secs).pair (keeps_word32 d.nanos) rest
  simp only [Field.pair] at h
  simp only [duration, Field.pair, h, ofParts?_eq_some]

theorem within_duration : duration.Within 12 :=
  fun d => (Within.pair (within_number 8).map (within_number 4).map) (d.secs, d.nanos)

/-! ## Payloads -/

theorem keeps_newRoundStep (m : NewRoundStep) : newRoundStep.Keeps m :=
  .map ((keeps_word64 _).pair ((keeps_word32 _).pair ((keeps_step _).pair
    ((keeps_word64 _).pair (keeps_optional keeps_word32 _))))) rfl

theorem keeps_newValidBlock (m : NewValidBlock) : newValidBlock.Keeps m :=
  .map ((keeps_word64 _).pair ((keeps_word32 _).pair ((keeps_fixedBytes _).pair
    (keeps_bool _)))) rfl

theorem keeps_hasVote (m : HasVote) : hasVote.Keeps m :=
  .map ((keeps_word64 _).pair ((keeps_word32 _).pair ((keeps_voteType _).pair
    (keeps_word32 _)))) rfl

theorem keeps_proposal (m : Proposal) : proposal.Keeps m :=
  .map ((keeps_word64 _).pair ((keeps_word32 _).pair ((keeps_optional keeps_word32 _).pair
    ((keeps_fixedBytes _).pair ((keeps_int64 _).pair ((keeps_fixedBytes _).pair
    (keeps_blob _))))))) rfl

theorem keeps_vote (m : Vote) : vote.Keeps m :=
  .map ((keeps_voteType _).pair ((keeps_word64 _).pair ((keeps_word32 _).pair
    ((keeps_optional keeps_fixedBytes _).pair ((keeps_int64 _).pair ((keeps_fixedBytes _).pair
    ((keeps_word32 _).pair (keeps_blob _)))))))) rfl

theorem keeps_voteSetMaj23 (m : VoteSetMaj23) : voteSetMaj23.Keeps m :=
  .map ((keeps_word64 _).pair ((keeps_word32 _).pair ((keeps_voteType _).pair
    (keeps_fixedBytes _)))) rfl

theorem keeps_getProposalBlock (m : GetProposalBlock) : getProposalBlock.Keeps m :=
  .map (keeps_fixedBytes _) rfl

theorem keeps_proposalBlock (m : ProposalBlock) : proposalBlock.Keeps m :=
  .map (keeps_blob _) rfl

theorem keeps_timeout (t : Timeout) : timeout.Keeps t :=
  .map ((keeps_duration _).pair ((keeps_word64 _).pair ((keeps_word32 _).pair
    (keeps_step _)))) rfl

theorem keeps_endHeight (m : EndHeight) : endHeight.Keeps m :=
  .map (keeps_word64 _) rfl

theorem keeps_peerInput {x : PeerId × Bytes} (h : x.2.length < 2 ^ 64) : peerInput.Keeps x :=
  (keeps_peerId x.1).pair (keeps_bytes h)

end ConsensusCore.Field
