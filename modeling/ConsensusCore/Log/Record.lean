import ConsensusCore.Bytes.Crc32
import ConsensusCore.Bytes.LittleEndian

/-!
# Records

An envelope is written to the log as a record: a header with the checksum and
the length of the envelope, and the envelope. Reading the front of a byte string
as a record has one of four outcomes (`RecordRead`): a record, nothing left, the
beginning of a record that ends too early, or bytes that cannot be trusted.

Where the bytes come from is left open (`readFrom`): a source gives as many of
its next bytes as it is asked for, or all that it has. A byte string is such a
source, and so is a stream that comes in pieces, with interruptions, from which
one fetches until there is enough (`Arrivals.take`).

* `Record.scan`: a byte string as the list of the records at its front, and how
  it ends;
* `Record.repaired`: a byte string without the beginning of a record at its end.
-/

namespace ConsensusCore

/-- Why the bytes of a record cannot be trusted. -/
inductive RecordFault where
  /-- The header claims a length above the maximum. -/
  | tooLong (length max : Nat)
  /-- The checksum is not that of the envelope. -/
  | checksum (stored computed : UInt32)
deriving DecidableEq, Repr

/-- What reading a record comes to. -/
inductive RecordRead where
  /-- A record with this envelope. -/
  | record (envelope : Bytes)
  /-- No byte is left. -/
  | eof
  /-- The bytes end inside a record, after so many of it. -/
  | torn (read : Nat)
  /-- The record cannot be trusted. -/
  | corrupt (fault : RecordFault)
deriving DecidableEq, Repr

/-- A word as eight hexadecimal digits. -/
def hexWord (w : UInt32) : String :=
  "0x" ++ String.ofList ((Nat.toDigits 16 (UInt32.size + w.toNat)).drop 1)

/-- The fault in words. -/
def RecordFault.message : RecordFault → String
  | .tooLong length max => s!"record length {length} exceeds max_record_size {max}"
  | .checksum stored computed =>
    "checksum mismatch: stored " ++ hexWord stored ++ ", computed " ++ hexWord computed

namespace Record

/-- The length of a header. -/
def headerLength : Nat := 8

/-- The record of an envelope. -/
def encode (envelope : Bytes) : Bytes :=
  LittleEndian.toBytes 4 (Crc32.checksum envelope).toNat ++
    LittleEndian.toBytes 4 envelope.length ++ envelope

/-- Reads a record from a source, of which `take n` gives the next `n` bytes, or
    all if there are fewer. An envelope longer than `max` is not even looked at. -/
def readFrom {σ : Type} (take : Nat → σ → Bytes × σ) (max : Nat) (s : σ) : RecordRead × σ :=
  let (header, s) := take headerLength s
  if header.isEmpty then (.eof, s)
  else if header.length < headerLength then (.torn header.length, s)
  else
    let stored := UInt32.ofNat (LittleEndian.ofBytes (header.take 4))
    let length := LittleEndian.ofBytes (header.drop 4)
    if max < length then (.corrupt (.tooLong length max), s)
    else
      let (envelope, s) := take length s
      if envelope.length < length then (.torn (headerLength + envelope.length), s)
      else
        let computed := Crc32.checksum envelope
        if computed = stored then (.record envelope, s)
        else (.corrupt (.checksum stored computed), s)

/-- Reads a record off the front of a byte string. -/
def read (max : Nat) (bs : Bytes) : RecordRead × Bytes :=
  readFrom (fun n bs => (bs.take n, bs.drop n)) max bs

theorem length_lt_of_read {max : Nat} {bs envelope rest : Bytes}
    (h : read max bs = (.record envelope, rest)) : rest.length < bs.length := by
  simp only [read, readFrom] at h
  split at h
  · cases h
  split at h
  · cases h
  split at h
  · cases h
  split at h
  · cases h
  next hlen _ _ =>
    split at h
    · simp only [Prod.mk.injEq] at h
      rw [← h.2]
      simp only [List.length_take, headerLength] at hlen
      simp only [List.length_drop, headerLength]
      omega
    · cases h

/-- The envelopes of the records at the front of a byte string, and what reading
    on after them comes to. -/
def scan (max : Nat) (bs : Bytes) : List Bytes × RecordRead :=
  match _h : read max bs with
  | (.record envelope, rest) =>
    let (envelopes, ending) := scan max rest
    (envelope :: envelopes, ending)
  | (ending, _) => ([], ending)
termination_by bs.length
decreasing_by exact length_lt_of_read _h

/-- The length of the records of some envelopes. -/
def totalLength (envelopes : List Bytes) : Nat :=
  envelopes.foldr (fun e n => headerLength + e.length + n) 0

/-- The byte string, cut after its last record if the bytes end inside one. -/
def repaired (max : Nat) (bs : Bytes) : Bytes :=
  match scan max bs with
  | (envelopes, .torn _) => bs.take (totalLength envelopes)
  | _ => bs

end Record

/-! ## Streams in pieces -/

/-- What the next request to a stream meets. -/
inductive Arrival where
  /-- Some bytes have come; if there are none, nothing more comes for now. -/
  | bytes (bs : Bytes)
  /-- The request is interrupted and has to be repeated. -/
  | interrupted
deriving DecidableEq, Repr

/-- What the requests to a stream meet, one after the other; afterwards the
    stream has ended. -/
abbrev Arrivals := List Arrival

namespace Arrivals

/-- The bytes of a stream. -/
def bytes (s : Arrivals) : Bytes :=
  s.flatMap fun
    | .bytes bs => bs
    | .interrupted => []

/-- Requests bytes until there are `n` of them, or the stream has ended. What a request does
    not take of the bytes that have come is left for the next one. -/
def take : Nat → Arrivals → Bytes × Arrivals
  | _, [] => ([], [])
  | n, .interrupted :: s => if n = 0 then ([], .interrupted :: s) else take n s
  | n, .bytes bs :: s =>
    if n = 0 then ([], .bytes bs :: s)
    else if bs.isEmpty then ([], s)
    else if n < bs.length then (bs.take n, .bytes (bs.drop n) :: s)
    else
      let (more, s) := take (n - bs.length) s
      (bs ++ more, s)

/-- A byte string that comes in pieces of `size`, each after an interruption if
    so asked. A piece without bytes is the end. -/
def ofBytes (size : Nat) (interrupts : Bool) (bs : Bytes) : Arrivals :=
  if h : bs = [] ∨ size = 0 then []
  else
    (if interrupts then [.interrupted] else []) ++
      .bytes (bs.take size) :: ofBytes size interrupts (bs.drop size)
termination_by bs.length
decreasing_by
  have := List.length_pos_iff.2 fun hb => h (.inl hb)
  have : size ≠ 0 := fun hs => h (.inr hs)
  simp only [List.length_drop]
  omega

end Arrivals

end ConsensusCore
