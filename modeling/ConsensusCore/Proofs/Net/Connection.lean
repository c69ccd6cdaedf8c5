import ConsensusCore.Net.Connection
import ConsensusCore.Proofs.Message.Envelope
import ConsensusCore.Proofs.Net.Frame

/-!
# A stream in pieces

The receiving end of a connection gets a stream in pieces, and the pieces may end anywhere.
What it has after some of them depends only on the bytes, not on the pieces
(`Connection.after`), and so do the frames that it takes.

* `feed_after`: with each piece it takes the frames that have become complete;
* `feedAll_new`: all together are the frames of the stream as a whole;
* `Sends.messages`: if frames of messages are sent, with frames of other bytes among them,
  the messages are what comes of it.
-/

namespace ConsensusCore

namespace Connection

variable {max : Nat} {stream : Bytes}

/-- The receiving end of a connection on which a stream has come. -/
def after (max : Nat) (stream : Bytes) : Connection :=
  match (Frame.split max stream).2 with
  | .incomplete rest => ⟨rest, true⟩
  | .tooLong => ⟨[], false⟩

theorem after_nil (max : Nat) : after max [] = new := by
  rw [after, Frame.split_nil]
  rfl

/-- Only a length above the maximum ends a connection. -/
theorem isOpen_after (max : Nat) (stream : Bytes) :
    (after max stream).isOpen = false ↔ (Frame.split max stream).2 = .tooLong := by
  rw [after]
  split
  next h => simp only [h, reduceCtorEq]
  next h => simp only [h]

/-- With a piece come the bodies of the frames that it completes. -/
theorem feed_after (max : Nat) (stream piece : Bytes) :
    (Frame.split max (stream ++ piece)).1 =
        (Frame.split max stream).1 ++ ((after max stream).feed max piece).1 ∧
      ((after max stream).feed max piece).2 = after max (stream ++ piece) := by
  rcases hs : Frame.split max stream with ⟨bodies, rest | _⟩
  · have hafter : after max stream = ⟨rest, true⟩ := by rw [after, hs]
    have happend := (Frame.splits_iff.2 hs).append_of_incomplete piece
    rw [hafter, after, happend]
    rcases hrest : Frame.split max (rest ++ piece) with ⟨more, rest' | _⟩ <;>
      simp only [feed, hrest, if_true, and_self]
  · have hafter : after max stream = ⟨[], false⟩ := by rw [after, hs]
    have happend := (Frame.splits_iff.2 hs).append_of_tooLong piece
    rw [hafter, after, happend]
    exact ⟨(List.append_nil _).symm, rfl⟩

theorem feedAll_after (max : Nat) (stream : Bytes) (pieces : List Bytes) :
    (Frame.split max (stream ++ pieces.flatten)).1 =
        (Frame.split max stream).1 ++ (feedAll max (after max stream) pieces).1 ∧
      (feedAll max (after max stream) pieces).2 = after max (stream ++ pieces.flatten) := by
  induction pieces generalizing stream with
  | nil => rw [List.flatten_nil, List.append_nil]; exact ⟨(List.append_nil _).symm, rfl⟩
  | cons piece pieces ih =>
    obtain ⟨hbodies, hafter⟩ := feed_after max stream piece
    obtain ⟨hmore, hend⟩ := ih (stream ++ piece)
    rw [List.flatten_cons, ← List.append_assoc]
    simp only [feedAll, hafter]
    exact ⟨by rw [hmore, hbodies, List.append_assoc], hend⟩

/-- However a stream is cut into pieces, the same frames are taken from it. -/
theorem feedAll_new (max : Nat) (pieces : List Bytes) :
    (feedAll max new pieces).1 = (Frame.split max pieces.flatten).1 := by
  obtain ⟨hbodies, -⟩ := feedAll_after max [] pieces
  rw [after_nil, Frame.split_nil, List.nil_append] at hbodies
  exact hbodies.symm

variable {μ : Type} {r : Registry μ}

theorem messages_append (bodies bodies' : List Bytes) :
    messages r (bodies ++ bodies') = messages r bodies ++ messages r bodies' :=
  List.filterMap_append

end Connection

/-! ## Messages among other frames -/

/-- What a registry has encoded, it decodes to the same message. -/
def Registry.Faithful {μ : Type} [Coded μ] (r : Registry μ) : Prop :=
  ∀ m bs, r.encode m = .ok bs → r.decode bs = .ok m

theorem Registry.faithful_peers : peers.Faithful := by
  intro m bs h
  rw [encode_peers] at h
  cases h
  exact decode_peers m

theorem Registry.faithful_inputs : (inputs peers).Faithful := by
  intro m bs h
  rw [encode_inputs] at h
  cases h
  exact decode_inputs m

/-- What is sent in a frame. -/
inductive Parcel (μ : Type) where
  | message (m : μ)
  /-- Bytes in which there is no message. -/
  | bytes (body : Bytes)

/-- The message in a parcel, if it is one. -/
def Parcel.message? {μ : Type} : Parcel μ → Option μ
  | .message m => some m
  | .bytes _ => none

section

variable {μ : Type} [Coded μ] {r : Registry μ} {max : Nat}

/-- The stream in which parcels are sent one after the other, each in a frame that is not above
    the maximum. -/
inductive Sends (r : Registry μ) (max : Nat) : List (Parcel μ) → Bytes → Prop
  | nil : Sends r max [] []
  | message {m : μ} {frame stream : Bytes} {parcels : List (Parcel μ)} :
    Frame.encode r max m = .ok frame → Sends r max parcels stream →
    Sends r max (.message m :: parcels) (frame ++ stream)
  | bytes {body stream : Bytes} {e : NetError} {parcels : List (Parcel μ)} :
    body.length ≤ max → body.length < UInt32.size → Frame.decode r body = .error e →
    Sends r max parcels stream → Sends r max (.bytes body :: parcels) (Frame.frame body ++ stream)

/-- The frame of a message holds its envelope, which a receiver with the same maximum takes. -/
theorem Frame.encode_eq_ok {m : μ} {frame : Bytes} (h : Frame.encode r max m = .ok frame) :
    ∃ body, r.encode m = .ok body ∧ body.length ≤ max ∧ body.length < UInt32.size ∧
      frame = Frame.frame body := by
  simp only [Frame.encode] at h
  split at h
  next => cases h
  next body hbody =>
    split at h
    next => cases h
    next hfits =>
      rw [not_or, Nat.not_lt, Nat.not_le] at hfits
      cases h
      exact ⟨body, hbody, hfits.1, hfits.2, rfl⟩

/-- What is sent are frames, one after the other, and their bodies hold the messages. -/
theorem Sends.eq_frames {parcels : List (Parcel μ)} {stream : Bytes}
    (h : Sends r max parcels stream) (hr : r.Faithful) :
    ∃ bodies : List Bytes, stream = bodies.flatMap Frame.frame ∧
      (∀ b ∈ bodies, b.length ≤ max ∧ b.length < 2 ^ 32) ∧
      Connection.messages r bodies = parcels.filterMap Parcel.message? := by
  induction h with
  | nil => exact ⟨[], rfl, fun _ hb => absurd hb List.not_mem_nil, rfl⟩
  | @message m frame stream parcels hframe _ ih =>
    obtain ⟨body, hbody, hmax, hsize, rfl⟩ := Frame.encode_eq_ok hframe
    obtain ⟨bodies, rfl, hfits, hmessages⟩ := ih
    have hdecode : Frame.decode r body = .ok m := by rw [Frame.decode, hr m body hbody]; rfl
    refine ⟨body :: bodies, List.flatMap_cons.symm,
      List.forall_mem_cons.2 ⟨⟨hmax, hsize⟩, hfits⟩, ?_⟩
    rw [Connection.messages, List.filterMap_cons_some (b := m) (by rw [hdecode]; rfl)]
    exact congrArg (m :: ·) hmessages
  | @bytes body stream e parcels hmax hsize hnone _ ih =>
    obtain ⟨bodies, rfl, hfits, hmessages⟩ := ih
    refine ⟨body :: bodies, List.flatMap_cons.symm,
      List.forall_mem_cons.2 ⟨⟨hmax, hsize⟩, hfits⟩, ?_⟩
    rw [Connection.messages, List.filterMap_cons_none (by rw [hnone]; rfl)]
    exact hmessages

/-- Of what is sent, the messages come, and the stream ends where a frame ends. -/
theorem Sends.messages {parcels : List (Parcel μ)} {stream : Bytes} (h : Sends r max parcels stream)
    (hr : r.Faithful) :
    Connection.messages r (Frame.split max stream).1 = parcels.filterMap Parcel.message? ∧
      (Frame.split max stream).2 = .incomplete [] := by
  obtain ⟨bodies, rfl, hfits, hmessages⟩ := h.eq_frames hr
  have hsplit := Frame.split_frames hfits []
  rw [Frame.split_nil, List.append_nil, List.append_nil] at hsplit
  rw [hsplit]
  exact ⟨hmessages, rfl⟩

end

end ConsensusCore
