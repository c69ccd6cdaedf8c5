import ConsensusCore.Bytes.Basic

/-!
# Little-endian numbers

A natural number as exactly `w` bytes, least significant first, and back.
-/

namespace ConsensusCore.LittleEndian

/-- The `w` bytes of `n`, least significant first; what does not fit is dropped. -/
def toBytes : Nat → Nat → Bytes
  | 0, _ => []
  | w + 1, n => UInt8.ofNat n :: toBytes w (n / 256)

/-- The number with the given bytes, least significant first. -/
def ofBytes : Bytes → Nat
  | [] => 0
  | b :: bs => b.toNat + 256 * ofBytes bs

@[simp] theorem length_toBytes (w n : Nat) : (toBytes w n).length = w := by
  induction w generalizing n with
  | zero => rfl
  | succ w ih => simp [toBytes, ih]

end ConsensusCore.LittleEndian
