import ConsensusCore.Codec.Registry
import ConsensusCore.Proofs.Keys
import Mathlib.Data.List.Induction

/-!
# Building registries

Codecs are registered one after the other, each under a code that none of those before it has.
If a code is used twice, the registry is not built, and what is told is the first code for which
this is so, with the name of the codec that has it already.

* `ofList_eq_ok_iff`: a registry is built exactly if each codec has a code of its own, and then
  has all of them;
* `ofList_eq_error_iff`: otherwise the first code that is used twice is told.
-/

namespace ConsensusCore.Registry

variable {μ : Type} {r : Registry μ} {codecs before after : List (UInt8 × Codec μ)} {code : UInt8}
  {codec existing : Codec μ} {e : CodecError}

theorem find?_eq_none_iff : r.find? code = none ↔ code ∉ r.entries.map (·.1) := by
  rw [find?, List.lookup_eq_none_iff, List.mem_map]
  constructor
  · rintro h ⟨c, hc, rfl⟩
    exact absurd rfl (bne_iff_ne.1 (h c hc))
  · intro h c hc
    exact bne_iff_ne.2 fun heq => h ⟨c, hc, heq.symm⟩

theorem find?_eq_some_iff (hnodup : (r.entries.map (·.1)).Nodup) :
    r.find? code = some codec ↔ (code, codec) ∈ r.entries :=
  ⟨mem_of_lookup, lookup_of_mem hnodup⟩

theorem register_of_not_mem (hnew : code ∉ r.entries.map (·.1)) :
    r.register code codec = .ok ⟨r.entries ++ [(code, codec)]⟩ := by
  rw [register, find?_eq_none_iff.2 hnew]

theorem register_of_mem (hnodup : (r.entries.map (·.1)).Nodup)
    (hmem : (code, existing) ∈ r.entries) :
    r.register code codec = .error (.duplicateCode code existing.name) := by
  rw [register, (find?_eq_some_iff hnodup).2 hmem]

/-- Codecs with codes of their own come behind those that are there. -/
theorem foldlM_register (hnodup : ((r.entries ++ codecs).map (·.1)).Nodup) :
    codecs.foldlM (fun r c => r.register c.1 c.2) r = .ok ⟨r.entries ++ codecs⟩ := by
  induction codecs generalizing r with
  | nil =>
    rw [List.append_nil]
    rfl
  | cons c codecs ih =>
    have hnew : c.1 ∉ r.entries.map (·.1) := by
      rw [List.map_append, List.map_cons, List.nodup_append] at hnodup
      exact fun hmem => hnodup.2.2 _ hmem _ List.mem_cons_self rfl
    have hregister : r.register c.1 c.2 = .ok ⟨r.entries ++ [c]⟩ := register_of_not_mem hnew
    rw [List.append_cons] at hnodup ⊢
    rw [List.foldlM_cons, hregister]
    exact ih hnodup

theorem ofList_of_nodup (hnodup : (codecs.map (·.1)).Nodup) : ofList codecs = .ok ⟨codecs⟩ :=
  foldlM_register hnodup

/-- A code that is used again is told, whatever was to be registered after it. -/
theorem ofList_of_repeated (hnodup : (before.map (·.1)).Nodup) (hmem : (code, existing) ∈ before) :
    ofList (before ++ (code, codec) :: after) = .error (.duplicateCode code existing.name) := by
  have hbefore : before.foldlM (fun r c => r.register c.1 c.2) empty = .ok ⟨before⟩ :=
    ofList_of_nodup hnodup
  have hregister : register ⟨before⟩ code codec = .error (.duplicateCode code existing.name) :=
    register_of_mem (r := ⟨before⟩) hnodup hmem
  rw [ofList, List.foldlM_append, hbefore]
  change List.foldlM _ (⟨before⟩ : Registry μ) _ = _
  rw [List.foldlM_cons, hregister]
  rfl

/-- Where not every code is used once, there is a first one that is used again. -/
theorem exists_repeated (hnot : ¬(codecs.map (·.1)).Nodup) :
    ∃ before code codec after existing, codecs = before ++ (code, codec) :: after ∧
      (before.map (·.1)).Nodup ∧ (code, existing) ∈ before := by
  induction codecs using List.reverseRecOn with
  | nil => exact absurd List.nodup_nil hnot
  | append_singleton codecs c ih =>
    by_cases hnodup : (codecs.map (·.1)).Nodup
    · have hmem : c.1 ∈ codecs.map (·.1) := by
        by_contra hnew
        rw [List.map_append, List.map_singleton, ← List.concat_eq_append, List.nodup_concat] at hnot
        exact hnot ⟨hnew, hnodup⟩
      obtain ⟨⟨code, existing⟩, hexisting, rfl⟩ := List.mem_map.1 hmem
      exact ⟨codecs, _, _, [], existing, rfl, hnodup, hexisting⟩
    · obtain ⟨before, code, codec, after, existing, rfl, hbefore⟩ := ih hnodup
      exact ⟨before, code, codec, after ++ [c], existing, by simp, hbefore⟩

theorem ofList_eq_ok_iff : ofList codecs = .ok r ↔ (codecs.map (·.1)).Nodup ∧ r = ⟨codecs⟩ := by
  constructor
  · intro h
    by_cases hnodup : (codecs.map (·.1)).Nodup
    · rw [ofList_of_nodup hnodup, Except.ok.injEq] at h
      exact ⟨hnodup, h.symm⟩
    · obtain ⟨before, code, codec, after, existing, rfl, hbefore, hmem⟩ := exists_repeated hnodup
      rw [ofList_of_repeated hbefore hmem] at h
      cases h
  · rintro ⟨hnodup, rfl⟩
    exact ofList_of_nodup hnodup

theorem ofList_eq_error_iff : ofList codecs = .error e ↔
    ∃ before code codec after existing, codecs = before ++ (code, codec) :: after ∧
      (before.map (·.1)).Nodup ∧ (code, existing) ∈ before ∧
      e = .duplicateCode code existing.name := by
  constructor
  · intro h
    by_cases hnodup : (codecs.map (·.1)).Nodup
    · rw [ofList_of_nodup hnodup] at h
      cases h
    · obtain ⟨before, code, codec, after, existing, rfl, hbefore, hmem⟩ := exists_repeated hnodup
      rw [ofList_of_repeated hbefore hmem, Except.error.injEq] at h
      exact ⟨before, code, codec, after, existing, rfl, hbefore, hmem, h.symm⟩
  · rintro ⟨before, code, codec, after, existing, rfl, hbefore, hmem, rfl⟩
    exact ofList_of_repeated hbefore hmem

end ConsensusCore.Registry
