import Mathlib.Algebra.Group.Nat.Defs
import ConsensusCore.Bytes.LittleEndian

/-!
# Little-endian numbers are read back

* `ofBytes_toBytes`: writing and reading keeps a number modulo `256 ^ w`;
* `toBytes_ofBytes`: every byte string is the writing of the number it reads as, so that
  byte strings of one length are different numbers (`ofBytes_inj`).
-/

namespace ConsensusCore.LittleEndian

theorem ofBytes_toBytes (w n : Nat) : ofBytes (toBytes w n) = n % 256 ^ w := by
  induction w generalizing n with
  | zero => simp [toBytes, ofBytes, Nat.mod_one]
  | succ w ih =>
    rw [toBytes, ofBytes, ih, Nat.pow_succ, Nat.mul_comm (256 ^ w), Nat.mod_mul]
    simp

theorem ofBytes_lt (bs : Bytes) : ofBytes bs < 256 ^ bs.length := by
  induction bs with
  | nil => simp [ofBytes]
  | cons b bs ih =>
    have := b.toNat_lt
    rw [ofBytes, List.length_cons, Nat.pow_succ]
    omega

theorem toBytes_ofBytes (bs : Bytes) : toBytes bs.length (ofBytes bs) = bs := by
  induction bs with
  | nil => rfl
  | cons b bs ih =>
    have hb := b.toNat_lt
    rw [List.length_cons, toBytes, ofBytes, Nat.add_mul_div_left _ _ (by decide),
      Nat.div_eq_of_lt hb, Nat.zero_add, ih]
    congr 1
    apply UInt8.toNat_inj.1
    rw [UInt8.toNat_ofNat', Nat.add_mul_mod_self_left, Nat.mod_eq_of_lt hb]

theorem ofBytes_inj {bs bs' : Bytes} (hlen : bs.length = bs'.length) :
    ofBytes bs = ofBytes bs' ↔ bs = bs' := by
  refine ⟨fun h => ?_, congrArg ofBytes⟩
  rw [← toBytes_ofBytes bs, hlen, h, toBytes_ofBytes]

end ConsensusCore.LittleEndian
