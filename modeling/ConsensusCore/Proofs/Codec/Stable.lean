import ConsensusCore.Proofs.Codec.Exact

/-!
# Encodings end where they end

What a field has read off the front of some bytes, it reads off the front of more bytes as well
(`Field.Stable`). An exact field that keeps every value is stable, for the bytes that it has read
are the ones that it writes (`Exact.stable`); the names of peers with an envelope behind them, and
timeouts, are put together from stable fields.

So a stable field fails on the beginning of what it writes: if it did not, it would read on beyond
the end of that, too, and leave what follows. If more follows, it is left over. No value is decoded
from less than its encoding, nor from more (`Keeps.decode_endsElsewhere`).
-/

namespace ConsensusCore

/-- One of the two byte strings goes on where the other one ends. -/
def Bytes.EndsElsewhere (bs bs' : Bytes) : Prop := bs ≠ bs' ∧ (bs <+: bs' ∨ bs' <+: bs)

namespace Field

variable {α β : Type} {f : Field α} {g : Field β} {a : α} {bs rest more : Bytes}

/-- What is read off the front does not depend on what follows. -/
def Stable (f : Field α) : Prop :=
  ∀ bs a rest, f.get bs = .ok (a, rest) → ∀ more, f.get (bs ++ more) = .ok (a, rest ++ more)

theorem Exact.get_append (hf : f.Exact) (ha : f.Keeps a) (h : f.get bs = .ok (a, rest))
    (more : Bytes) : f.get (bs ++ more) = .ok (a, rest ++ more) := by
  rw [hf _ _ _ h, List.append_assoc]
  exact ha (rest ++ more)

theorem Exact.stable (hf : f.Exact) (hkeeps : ∀ a, f.Keeps a) : f.Stable :=
  fun _ a _ h => hf.get_append (hkeeps a) h

/-! ## Composition -/

theorem Stable.map {forth : α → β} {back : β → α} (hf : f.Stable) : (f.map forth back).Stable := by
  intro bs b rest h more
  simp only [Field.map] at h ⊢
  split at h
  · next a rest' hget =>
    cases h
    rw [hf _ _ _ hget more]
  · cases h

theorem Stable.pair (hf : f.Stable) (hg : g.Stable) : (f.pair g).Stable := by
  rintro bs ⟨a, b⟩ rest h more
  simp only [Field.pair] at h
  split at h
  · cases h
  · next hfget =>
    split at h
    · cases h
    · next hgget =>
      cases h
      exact pair_get (hf _ _ _ hfget more) (hg _ _ _ hgget more)

/-! ## Fields that do not keep, or not exactly, every value -/

/-- The length of a byte string that has been read fits its 64 bits. -/
theorem length_lt_of_bytes_get (h : bytes.get bs = .ok (more, rest)) : more.length < 2 ^ 64 := by
  simp only [bytes] at h
  split at h
  · cases h
  · next hnumber =>
    split at h
    · next hsplit =>
      cases h
      rw [(Bytes.eq_append_of_splitExactly hsplit).2]
      exact (getNumber_eq_ok hnumber).2
    · cases h

theorem stable_bytes : bytes.Stable :=
  fun _ _ _ h => exact_bytes.get_append (keeps_bytes (length_lt_of_bytes_get h)) h

theorem stable_peerInput : peerInput.Stable := (exact_peerId.stable keeps_peerId).pair stable_bytes

theorem stable_duration : duration.Stable := by
  intro bs d rest h more
  obtain ⟨secs, nanos, rfl, hparts⟩ := duration_get_iff.1 h
  exact duration_get_iff.2 ⟨secs, nanos, List.append_assoc _ _ _, hparts⟩

theorem stable_timeout : timeout.Stable :=
  (stable_duration.pair ((exact_word64.stable keeps_word64).pair
    ((exact_word32.stable keeps_word32).pair (exact_step.stable keeps_step)))).map

/-! ## Too few bytes, or too many -/

theorem Keeps.decode_prefix (ha : f.Keeps a) (hf : f.Stable) (hne : bs ≠ f.put a)
    (hbegins : bs <+: f.put a) : ∃ e, f.decode bs = .error e := by
  obtain ⟨more, hmore⟩ := hbegins
  cases hget : f.get bs with
  | error e => exact ⟨e, by rw [decode, hget]⟩
  | ok r =>
    -- what is missing would be left by the field after it has read all that it has written
    have hstable := hf _ _ _ hget more
    have hall := ha []
    rw [List.append_nil] at hall
    rw [hmore, hall, Except.ok.injEq, Prod.mk.injEq] at hstable
    have hnone : more = [] := (List.append_eq_nil_iff.1 hstable.2.symm).2
    rw [hnone, List.append_nil] at hmore
    exact absurd hmore hne

theorem Keeps.decode_append (ha : f.Keeps a) (hmore : more ≠ []) :
    f.decode (f.put a ++ more) = .error .trailingBytes := by
  obtain ⟨b, bs, rfl⟩ := List.exists_cons_of_ne_nil hmore
  rw [decode, ha (b :: bs)]

theorem Keeps.decode_endsElsewhere (ha : f.Keeps a) (hf : f.Stable)
    (h : bs.EndsElsewhere (f.put a)) : ∃ e, f.decode bs = .error e := by
  obtain ⟨hne, hbegins | ⟨more, rfl⟩⟩ := h
  · exact ha.decode_prefix hf hne hbegins
  · refine ⟨_, ha.decode_append ?_⟩
    rintro rfl
    exact hne (List.append_nil _)

end Field

end ConsensusCore
