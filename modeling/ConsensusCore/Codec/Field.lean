import ConsensusCore.Bytes.LittleEndian
import ConsensusCore.Codec.Fault
import ConsensusCore.Duration
import ConsensusCore.RoundStep

/-!
# Fields

A `Field α` says how a value of `α` is written, and how it is read off the front
of a byte string. Larger layouts are built from smaller ones: one field after
the other (`Field.pair`), an optional one behind a tag (`Field.optional`), and
the fields of a structure as those of a tuple (`Field.map`). Numbers have a fixed
width and their least significant byte first; what varies in length has its
length before it, in 64 bits.

A value is encoded as what its field writes, and decoded from bytes of which its
field leaves none (`Field.decode`).
-/

namespace ConsensusCore

/-- How a value is written, and how it is read off the front of a byte string. -/
structure Field (α : Type) where
  /-- The bytes of a value. -/
  put : α → Bytes
  /-- The value at the front of a byte string, and what follows it. -/
  get : Bytes → Except Fault (α × Bytes)

namespace Field

variable {α β : Type}

/-- The value that the bytes encode, all of them. -/
def decode (f : Field α) (bs : Bytes) : Except Fault α :=
  match f.get bs with
  | .ok (a, []) => .ok a
  | .ok (_, _ :: _) => .error .trailingBytes
  | .error e => .error e

/-- A field for `α` read as one for `β`. -/
def map (f : Field α) (forth : α → β) (back : β → α) : Field β where
  put b := f.put (back b)
  get bs :=
    match f.get bs with
    | .ok (a, rest) => .ok (forth a, rest)
    | .error e => .error e

/-- One field after the other. -/
def pair (f : Field α) (g : Field β) : Field (α × β) where
  put x := f.put x.1 ++ g.put x.2
  get bs :=
    match f.get bs with
    | .error e => .error e
    | .ok (a, rest) =>
      match g.get rest with
      | .error e => .error e
      | .ok (b, rest) => .ok ((a, b), rest)

/-! ## Numbers -/

/-- The number in the first `w` bytes. -/
def getNumber (w : Nat) (bs : Bytes) : Except Fault (Nat × Bytes) :=
  match Bytes.splitExactly w bs with
  | some (front, rest) => .ok (LittleEndian.ofBytes front, rest)
  | none => .error .endOfInput

/-- A number below `256 ^ w`, in `w` bytes. -/
def number (w : Nat) : Field Nat where
  put := LittleEndian.toBytes w
  get := getNumber w

/-- An 8-bit word. -/
def word8 : Field UInt8 := (number 1).map UInt8.ofNat UInt8.toNat

/-- A 32-bit word. -/
def word32 : Field UInt32 := (number 4).map UInt32.ofNat UInt32.toNat

/-- A 64-bit word. -/
def word64 : Field UInt64 := (number 8).map UInt64.ofNat UInt64.toNat

/-- A signed 64-bit number, in two's complement. -/
def int64 : Field Int64 := word64.map UInt64.toInt64 Int64.toUInt64

/-! ## Alternatives -/

/-- A truth value, as a byte 0 or 1. -/
def bool : Field Bool where
  put b := [if b then 1 else 0]
  get bs :=
    match word8.get bs with
    | .error e => .error e
    | .ok (n, rest) =>
      if n = 0 then .ok (false, rest)
      else if n = 1 then .ok (true, rest)
      else .error (.badBool n)

/-- A field that may be missing: a byte 0, or a byte 1 and the field. -/
def optional (f : Field α) : Field (Option α) where
  put
    | none => [0]
    | some a => 1 :: f.put a
  get bs :=
    match word8.get bs with
    | .error e => .error e
    | .ok (n, rest) =>
      if n = 0 then .ok (none, rest)
      else if n = 1 then
        match f.get rest with
        | .ok (a, rest) => .ok (some a, rest)
        | .error e => .error e
      else .error (.badTag n)

/-- One of a list of alternatives, as its index in 32 bits. -/
def choice (all : List α) (index : α → Nat) : Field α where
  put a := LittleEndian.toBytes 4 (index a)
  get bs :=
    match getNumber 4 bs with
    | .error e => .error e
    | .ok (n, rest) =>
      match all[n]? with
      | some a => .ok (a, rest)
      | none => .error (.badChoice n all.length)

/-- A step of a round. -/
def step : Field Step := choice Step.all Step.index

/-- A type of votes. -/
def voteType : Field VoteType := choice VoteType.all VoteType.index

/-! ## Byte strings -/

/-- A byte string of length `n`. -/
def fixedBytes (n : Nat) : Field (FixedBytes n) where
  put a := a.bytes
  get bs :=
    match h : Bytes.splitExactly n bs with
    | some (front, rest) => .ok (⟨front, (Bytes.eq_append_of_splitExactly h).2⟩, rest)
    | none => .error .endOfInput

/-- A byte string of any length, its length before it. -/
def bytes : Field Bytes where
  put bs := LittleEndian.toBytes 8 bs.length ++ bs
  get bs :=
    match getNumber 8 bs with
    | .error e => .error e
    | .ok (n, rest) =>
      match Bytes.splitExactly n rest with
      | some (front, rest) => .ok (front, rest)
      | none => .error .endOfInput

/-- A blob, its length before it. -/
def blob : Field Blob where
  put b := bytes.put b.bytes
  get bs :=
    match bytes.get bs with
    | .error e => .error e
    | .ok (front, rest) =>
      match Blob.ofBytes? front with
      | some b => .ok (b, rest)
      | none => .error .endOfInput

/-- A text, the length of its UTF-8 encoding before it. -/
def text : Field String where
  put s := bytes.put (Utf8.encode s)
  get bs :=
    match getNumber 8 bs with
    | .error e => .error e
    | .ok (n, rest) =>
      match Bytes.splitExactly n rest with
      | none => .error .textOverrun
      | some (front, rest) =>
        match Utf8.decode front with
        | .ok s => .ok (s, rest)
        | .error e => .error (.badText e)

/-! ## Times -/

/-- A duration, as seconds and nanoseconds; more nanoseconds than a second has
    are read as further seconds. -/
def duration : Field Duration where
  put d := word64.put d.secs ++ word32.put d.nanos
  get bs :=
    match (word64.pair word32).get bs with
    | .error e => .error e
    | .ok ((secs, nanos), rest) =>
      match Duration.ofParts? secs nanos with
      | some d => .ok (d, rest)
      | none => .error .durationOverflow

/-- A position of the state machine. -/
def roundStep : Field RoundStep :=
  (word64.pair (word32.pair step)).map (fun (h, r, s) => ⟨h, r, s⟩)
    (fun p => (p.height, p.round, p.step))

end Field

end ConsensusCore
