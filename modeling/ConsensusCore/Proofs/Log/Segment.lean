import ConsensusCore.Log.Segment
import ConsensusCore.Proofs.Disk

/-!
# Names of segments

The number of a tail is read back from its name (`index?_tailName`), so that the tails
with different numbers have different names, and none has that of the head. All of them
are names of entries: they lead neither out of the directory nor back to it.
-/

namespace ConsensusCore.Segment

open LogConfig

theorem toList_digits (i : Nat) :
    (digits i).toList =
      List.replicate (3 - (Nat.toDigits 10 i).length) '0' ++ Nat.toDigits 10 i := by
  simp [digits]

theorem toList_tailName (i : Nat) : (tailName i).toList = "WAL.".toList ++ (digits i).toList := by
  simp [tailName, headName]

/-- Leading zeros do not change the number that digits make. -/
theorem decimal?_digits (i : Nat) : decimal? (digits i).toList = some i := by
  have hdigits : (digits i).toList.all Char.isDigit = true := by
    rw [toList_digits, List.all_append, List.all_replicate, Bool.and_eq_true, List.all_eq_true]
    exact ⟨by split <;> decide, fun c hc => Nat.isDigit_of_mem_toDigits (by decide) (by decide) hc⟩
  have hne : (digits i).toList.isEmpty = false := by
    rw [toList_digits, List.isEmpty_eq_false_iff]
    exact List.append_ne_nil_of_right_ne_nil _ Nat.toDigits_ne_nil
  have hvalue : (digits i).toList.foldl (fun n c => 10 * n + (c.toNat - '0'.toNat)) 0 = i := by
    rw [← Nat.ofDigitChars_eq_foldl, toList_digits, Nat.ofDigitChars_append,
      Nat.ofDigitChars_replicate_zero, Nat.mul_zero, Nat.ofDigitChars_ten_toDigits]
  simp only [decimal?, hdigits, hne, hvalue]
  rfl

theorem head?_digits_ne (i : Nat) : (digits i).toList.head? ≠ some '+' := by
  intro h
  have hmem := List.mem_of_mem_head? h
  rw [toList_digits, List.mem_append, List.mem_replicate] at hmem
  rcases hmem with ⟨_, hz⟩ | hd
  · exact absurd hz (by decide)
  · exact absurd (Nat.isDigit_of_mem_toDigits (by decide) (by decide) hd) (by decide)

/-- A tail is recognised by its name. -/
theorem index?_tailName {i : Nat} (h : i ≤ Saturating.ceiling) : index? (tailName i) = some i := by
  have hstart : (headName ++ ".").toList = "WAL.".toList := by simp [headName]
  have hpre : ("WAL.".toList).isPrefixOf (tailName i).toList = true := by
    rw [toList_tailName, List.isPrefixOf_iff_prefix]
    exact List.prefix_append _ _
  have hdrop : (tailName i).toList.drop "WAL.".toList.length = (digits i).toList := by
    rw [toList_tailName, List.drop_left]
  simp only [index?, hstart, hpre, hdrop, if_true, number?, head?_digits_ne, if_false,
    decimal?_digits, h]

theorem tailName_injective {i j : Nat} (h : tailName i = tailName j) : i = j := by
  have hl := congrArg String.toList h
  rw [toList_tailName, toList_tailName, List.append_cancel_left_eq] at hl
  have hd := decimal?_digits i
  rw [hl, decimal?_digits] at hd
  exact (Option.some.inj hd).symm

/-- The name of a tail is at least as long as what it begins with. -/
theorem tailName_ne {i : Nat} {s : String} (hs : s.toList.length < 4) : tailName i ≠ s := by
  rintro rfl
  rw [toList_tailName, List.length_append] at hs
  have : ("WAL.".toList).length = 4 := by decide
  omega

theorem tailName_ne_headName (i : Nat) : tailName i ≠ headName := tailName_ne (by decide)

theorem index?_headName : index? headName = none := by decide

theorem isEntry_headName : Route.IsEntry headName := by decide

theorem isEntry_tailName (i : Nat) : Route.IsEntry (tailName i) := by
  have hempty : tailName i ≠ "" := tailName_ne (by decide)
  have hdot : tailName i ≠ "." := tailName_ne (by decide)
  refine ⟨?_, tailName_ne (by decide)⟩
  simp [Route.stays, String.isEmpty, hempty, hdot]

end ConsensusCore.Segment
