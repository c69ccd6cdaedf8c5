import ConsensusCore.Bytes.Basic

/-!
# Text as bytes

Text travels as UTF-8. Bytes that are no UTF-8 are refused with the place of the
first fault: where the sequence starts that no character has, and how many of
its bytes could still have begun one, or that the bytes end inside a character.

Whether there is a fault is decided by `String.fromUTF8?`, so `decode` inverts
`encode` by the laws of `String`. Where the fault is, is found by running over
the bytes with an automaton (`Utf8.Scan`) that knows, inside a character, how
many bytes are still owed and in which range the next one has to lie.

* `decode_encode`, `eq_encode_of_decode`: exactly the encodings of text decode.
-/

namespace ConsensusCore.Utf8

/-- Where bytes stop being UTF-8. -/
inductive Fault where
  /-- From `start`, `length` bytes that begin a character which they do not go on as. -/
  | invalid (length start : Nat)
  /-- The bytes end inside the character that begins at `start`. -/
  | incomplete (start : Nat)
deriving DecidableEq, Repr

/-- Where a scan stands inside a character: `seen` of its bytes are read, `owed`
    are to come, and the next of them lies between `low` and `high`. -/
structure Scan where
  seen : Nat
  owed : Nat
  low : UInt8
  high : UInt8

/-- What the first byte of a character says about the rest of it: `none` if it
    begins no character, `some none` if it is one by itself. -/
def Scan.ofLead (b : UInt8) : Option (Option Scan) :=
  if b < 0x80 then some none
  else if b < 0xC2 then none
  else if b < 0xE0 then some (some ⟨1, 1, 0x80, 0xBF⟩)
  else if b = 0xE0 then some (some ⟨1, 2, 0xA0, 0xBF⟩)
  else if b = 0xED then some (some ⟨1, 2, 0x80, 0x9F⟩)
  else if b < 0xF0 then some (some ⟨1, 2, 0x80, 0xBF⟩)
  else if b = 0xF0 then some (some ⟨1, 3, 0x90, 0xBF⟩)
  else if b < 0xF4 then some (some ⟨1, 3, 0x80, 0xBF⟩)
  else if b = 0xF4 then some (some ⟨1, 3, 0x80, 0x8F⟩)
  else none

/-- The scan after one more byte of the character, `none` once it is complete. -/
def Scan.next (s : Scan) : Option Scan :=
  if s.owed ≤ 1 then none else some ⟨s.seen + 1, s.owed - 1, 0x80, 0xBF⟩

/-- The fault found by going on from byte `pos`, in a character that began at
    `start` if there is a scan. -/
def faultFrom (pos start : Nat) (scan : Option Scan) : Bytes → Option Fault
  | [] => scan.map fun _ => .incomplete start
  | b :: bs =>
    match scan with
    | none =>
      match Scan.ofLead b with
      | none => some (.invalid 1 pos)
      | some scan => faultFrom (pos + 1) pos scan bs
    | some s =>
      if s.low ≤ b ∧ b ≤ s.high then faultFrom (pos + 1) start s.next bs
      else some (.invalid s.seen start)

/-- The first fault of bytes that are no UTF-8. -/
def fault (bs : Bytes) : Fault :=
  (faultFrom 0 0 none bs).getD (.incomplete bs.length)

/-- The bytes of a text. -/
def encode (s : String) : Bytes := s.toByteArray.data.toList

/-- The text that the bytes encode. -/
def decode (bs : Bytes) : Except Fault String :=
  match String.fromUTF8? ⟨bs.toArray⟩ with
  | some s => .ok s
  | none => .error (fault bs)

theorem decode_encode (s : String) : decode (encode s) = .ok s := by
  have h : (⟨s.toByteArray.data⟩ : ByteArray).IsValidUTF8 := s.isValidUTF8
  simp [decode, encode, String.fromUTF8?, String.fromUTF8, h]

theorem eq_encode_of_decode {bs : Bytes} {s : String} (h : decode bs = .ok s) : bs = encode s := by
  unfold decode String.fromUTF8? at h
  split at h
  · next hs =>
    split at hs
    · cases hs; cases h; simp [encode, String.fromUTF8]
    · cases hs
  · cases h

theorem length_encode (s : String) : (encode s).length = s.utf8ByteSize := rfl

/-- The fault in words. -/
def Fault.message : Fault → String
  | .invalid length start => s!"invalid utf-8 sequence of {length} bytes from index {start}"
  | .incomplete start => s!"incomplete utf-8 byte sequence from index {start}"

end ConsensusCore.Utf8
