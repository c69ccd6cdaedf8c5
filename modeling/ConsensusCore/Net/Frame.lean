import ConsensusCore.Bytes.LittleEndian
import ConsensusCore.Net.Error

/-!
# Frames

On a connection an envelope is sent as a frame: its length, in four bytes, and the
envelope. A stream of bytes is taken apart into the bodies of its frames
(`Frame.split`), up to a frame that is not complete, or to a length above the
maximum, after which the stream cannot be trusted.
-/

namespace ConsensusCore

namespace Frame

/-- The length of the header of a frame. -/
def headerLength : Nat := 4

/-- The frame of an envelope. -/
def frame (body : Bytes) : Bytes := LittleEndian.toBytes headerLength body.length ++ body

/-- The length that a header claims. -/
def lengthOf (header : Bytes) : Nat := LittleEndian.ofBytes header

/-- The frame of a message, whose envelope may have the length `max`. -/
def encode {μ : Type} [Coded μ] (r : Registry μ) (max : Nat) (m : μ) : Except NetError Bytes :=
  match r.encode m with
  | .error e => .error (.codec e)
  | .ok body =>
    if max < body.length ∨ UInt32.size ≤ body.length then .error (.messageTooLarge body.length max)
    else .ok (frame body)

/-- The message in the body of a frame. -/
def decode {μ : Type} (r : Registry μ) (body : Bytes) : Except NetError μ :=
  (r.decode body).mapError .codec

end Frame

/-- What the front of a stream is. -/
inductive FrameRead where
  /-- A frame with this body, and what follows it. -/
  | body (body rest : Bytes)
  /-- The beginning of a frame. -/
  | incomplete
  /-- A length above the maximum. -/
  | tooLong
deriving DecidableEq

/-- How a stream ends. -/
inductive FrameEnd where
  /-- With the beginning of a frame, or nothing. -/
  | incomplete (bs : Bytes)
  /-- With a length above the maximum. -/
  | tooLong
deriving DecidableEq

namespace Frame

/-- Reads a frame off the front of a stream. -/
def read (max : Nat) (bs : Bytes) : FrameRead :=
  match Bytes.splitExactly headerLength bs with
  | none => .incomplete
  | some (header, rest) =>
    if max < lengthOf header then .tooLong
    else
      match Bytes.splitExactly (lengthOf header) rest with
      | none => .incomplete
      | some (body, rest) => .body body rest

theorem length_lt_of_read {max : Nat} {bs body rest : Bytes} (h : read max bs = .body body rest) :
    rest.length < bs.length := by
  unfold read at h
  split at h
  · cases h
  next header rest' hs =>
    obtain ⟨rfl, hh⟩ := Bytes.eq_append_of_splitExactly hs
    split at h
    · cases h
    split at h
    · cases h
    next body' rest'' hb =>
      obtain ⟨rfl, _⟩ := Bytes.eq_append_of_splitExactly hb
      cases h
      simp only [List.length_append, headerLength] at *
      omega

/-- The bodies of the frames at the front of a stream, and how it ends. -/
def split (max : Nat) (bs : Bytes) : List Bytes × FrameEnd :=
  match _h : read max bs with
  | .body body rest =>
    let (bodies, ending) := split max rest
    (body :: bodies, ending)
  | .incomplete => ([], .incomplete bs)
  | .tooLong => ([], .tooLong)
termination_by bs.length
decreasing_by exact length_lt_of_read _h

end Frame

end ConsensusCore
