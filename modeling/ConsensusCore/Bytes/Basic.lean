/-!
# Byte strings

Everything the library writes, to disk or to a connection, is a list of bytes.
Readers take fields off its front, so the basic operation is to split a given
number of bytes off (`Bytes.splitExactly`), which fails when there are fewer.

* `splitExactly_append`, `eq_append_of_splitExactly`: splitting inverts `++`;
* `splitExactly_eq_none`: it fails exactly on a shorter string.

Two kinds of byte strings occur as fields of messages: those of a fixed length
(`FixedBytes`, hashes and keys) and those whose length is written before them
(`Blob`). A blob is smaller than the memory of a machine, so that the length of
an encoding which holds a few of them still fits the 64-bit length fields.
-/

namespace ConsensusCore

/-- A byte string. -/
abbrev Bytes := List UInt8

namespace Bytes

/-- The first `n` bytes and the rest, if there are that many. -/
def splitExactly (n : Nat) (bs : Bytes) : Option (Bytes × Bytes) :=
  if (bs.take n).length = n then some (bs.take n, bs.drop n) else none

theorem splitExactly_append (a b : Bytes) : splitExactly a.length (a ++ b) = some (a, b) := by
  simp [splitExactly]

theorem eq_append_of_splitExactly {n : Nat} {bs a b : Bytes}
    (h : splitExactly n bs = some (a, b)) : bs = a ++ b ∧ a.length = n := by
  unfold splitExactly at h
  split at h
  · next hn =>
    simp only [Option.some.injEq, Prod.mk.injEq] at h
    obtain ⟨rfl, rfl⟩ := h
    exact ⟨(List.take_append_drop n bs).symm, hn⟩
  · cases h

theorem splitExactly_eq_none {n : Nat} {bs : Bytes} :
    splitExactly n bs = none ↔ bs.length < n := by
  simp only [splitExactly, List.length_take]
  split <;> simp <;> omega

end Bytes

/-- A byte string of length `n`. -/
structure FixedBytes (n : Nat) where
  bytes : Bytes
  length_eq : bytes.length = n
deriving DecidableEq

/-- The byte string, if it has the length `n`. -/
def FixedBytes.ofBytes? (n : Nat) (bs : Bytes) : Option (FixedBytes n) :=
  if h : bs.length = n then some ⟨bs, h⟩ else none

/-- `n` times the same byte. -/
def FixedBytes.replicate (n : Nat) (b : UInt8) : FixedBytes n :=
  ⟨List.replicate n b, List.length_replicate⟩

/-- The hash of a block. -/
abbrev Hash := FixedBytes 32

/-- The public key of a validator. -/
abbrev PublicKey := FixedBytes 32

/-- The length that blobs stay below. -/
def Blob.limit : Nat := UInt64.size / 4

/-- A byte string of any length that the memory of a machine can hold. -/
structure Blob where
  bytes : Bytes
  length_lt : bytes.length < Blob.limit
deriving DecidableEq

/-- The byte string, unless it is too long for a blob. -/
def Blob.ofBytes? (bs : Bytes) : Option Blob :=
  if h : bs.length < Blob.limit then some ⟨bs, h⟩ else none

end ConsensusCore
