import Mathlib.Logic.Function.Basic
import ConsensusCore.Bytes.Crc32

/-!
# One byte changes the checksum

The lowest bit of the register decides whether the polynomial is added when it is shifted.
The highest coefficient of the polynomial ends up in the highest bit of the register, which
is otherwise left empty: it tells what the lowest bit was. So nothing is lost by a shift
(`shift_injective`), nor by absorbing a byte, and registers that differ once differ after any
more bytes. So the checksum tells if one byte was replaced by another one, in a byte string of
any length (`checksum_set_ne`).
-/

namespace ConsensusCore.Crc32

open Function

/-- The lowest bit is what is left of the register under the mask. -/
theorem and_one_eq_zero_iff (r : UInt32) : r &&& 1 = 0 ↔ r.toBitVec.getLsbD 0 = false := by
  have hmask : (r &&& 1).toBitVec = (BitVec.ofBool (r.toBitVec.getLsbD 0)).setWidth 32 := by
    rw [UInt32.toBitVec_and]
    exact BitVec.and_one_eq_setWidth_ofBool_getLsbD
  rw [← UInt32.toBitVec_inj, hmask]
  cases r.toBitVec.getLsbD 0 <;> decide

/-- The bits of a register after a shift. -/
theorem getLsbD_shift (r : UInt32) (i : Nat) :
    (shift r).toBitVec.getLsbD i =
      (r.toBitVec.getLsbD (i + 1) ^^ (r.toBitVec.getLsbD 0 && polynomial.toBitVec.getLsbD i)) := by
  have hmoved : (r >>> 1).toBitVec.getLsbD i = r.toBitVec.getLsbD (i + 1) := by
    rw [UInt32.toBitVec_shiftRight]
    simp [Nat.add_comm]
  rw [shift]
  split
  next hlow =>
    rw [(and_one_eq_zero_iff r).1 hlow, Bool.false_and, Bool.xor_false, hmoved]
  next hlow =>
    rw [and_one_eq_zero_iff, Bool.not_eq_false] at hlow
    rw [hlow, Bool.true_and, UInt32.toBitVec_xor, BitVec.getLsbD_xor, hmoved]

theorem shift_injective : Injective shift := by
  intro r r' h
  have hbits (i : Nat) := congrArg (·.toBitVec.getLsbD i) h
  simp only [getLsbD_shift] at hbits
  -- the highest bit is the one that was the lowest
  have hlow : r.toBitVec.getLsbD 0 = r'.toBitVec.getLsbD 0 := by
    have hhigh : polynomial.toBitVec.getLsbD 31 = true := by decide
    have hbit := hbits 31
    rwa [hhigh, Bool.and_true, Bool.and_true, BitVec.getLsbD_of_ge _ 32 (Nat.le_refl _),
      BitVec.getLsbD_of_ge _ 32 (Nat.le_refl _), Bool.false_xor, Bool.false_xor] at hbit
  refine UInt32.toBitVec_inj.1 (BitVec.eq_of_getLsbD_eq fun i _ => ?_)
  cases i with
  | zero => exact hlow
  | succ i =>
    have hbit := hbits i
    rwa [hlow, Bool.xor_left_inj] at hbit

theorem eight_shifts_injective :
    Injective (shift ∘ shift ∘ shift ∘ shift ∘ shift ∘ shift ∘ shift ∘ shift) := by
  iterate 7 refine shift_injective.comp ?_
  exact shift_injective

/-- Registers that differ still do after a byte. -/
theorem absorb_injective_register (b : UInt8) : Injective (absorb · b) := by
  intro r r' h
  exact UInt32.xor_left_inj b.toUInt32 |>.1 (eight_shifts_injective h)

/-- Different bytes leave different registers. -/
theorem absorb_injective_byte (r : UInt32) : Injective (absorb r) := by
  intro b b' h
  have hword : b.toUInt32 = b'.toUInt32 :=
    UInt32.xor_right_inj r |>.1 (eight_shifts_injective h)
  exact UInt8.toUInt32_inj.1 hword

/-- Registers that differ still do after any more bytes. -/
theorem foldl_absorb_injective (bs : Bytes) : Injective (bs.foldl absorb ·) := by
  induction bs with
  | nil => exact injective_id
  | cons b bs ih => exact ih.comp (absorb_injective_register b)

/-- A byte string with one of its bytes replaced by another one has another checksum. -/
theorem checksum_set_ne {bs : Bytes} {k : Nat} (hk : k < bs.length) {b : UInt8} (h : b ≠ bs[k]) :
    checksum (bs.set k b) ≠ checksum bs := by
  intro hsum
  have hregister := (UInt32.xor_left_inj _).1 hsum
  have hbs : bs = bs.take k ++ bs[k] :: bs.drop (k + 1) := by
    rw [← List.drop_eq_getElem_cons hk, List.take_append_drop]
  have hset : bs.set k b = bs.take k ++ b :: bs.drop (k + 1) := by
    rw [List.set_eq_take_append_cons_drop, if_pos hk]
  -- the bytes before it lead to one register, from which the two bytes part
  rw [hset, register, register, List.foldl_append, congrArg (List.foldl absorb _) hbs,
    List.foldl_append] at hregister
  exact h (absorb_injective_byte _ (foldl_absorb_injective _ hregister))

end ConsensusCore.Crc32
