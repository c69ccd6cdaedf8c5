import ConsensusCore.Net.Frame
import ConsensusCore.Proofs.Bytes.LittleEndian

/-!
# Streams of frames

A stream is a number of complete frames and what comes after them: nothing, a header or a
body that has been cut, or a length above the maximum (`Frame.Splits`). Every stream is this
in one way, the one that `Frame.split` finds (`splits_iff`).

* `read_frame`: a frame is read back, whatever follows it;
* `split_frames`: so are the bodies of frames that are sent one after the other;
* `Splits.append_of_incomplete`, `Splits.append_of_tooLong`: what comes later changes nothing
  of the frames that are complete, and after a length above the maximum nothing counts.
-/

namespace ConsensusCore.Frame

variable {max : Nat} {bs bs' header body rest : Bytes} {bodies : List Bytes} {ending : FrameEnd}

/-- What a stream is made of: the bodies of its complete frames, none above the maximum, and
    how it ends. -/
inductive Splits (max : Nat) : Bytes → List Bytes → FrameEnd → Prop
  | frame {header body rest : Bytes} {bodies : List Bytes} {ending : FrameEnd} :
    header.length = headerLength → lengthOf header = body.length → body.length ≤ max →
    Splits max rest bodies ending → Splits max (header ++ body ++ rest) (body :: bodies) ending
  /-- The stream ends before or within a header. -/
  | cutHeader {bs : Bytes} : bs.length < headerLength → Splits max bs [] (.incomplete bs)
  /-- The stream ends within a body. -/
  | cutBody {header bs : Bytes} :
    header.length = headerLength → lengthOf header ≤ max → bs.length < lengthOf header →
    Splits max (header ++ bs) [] (.incomplete (header ++ bs))
  /-- A header claims more than the maximum; whatever follows it is left. -/
  | tooLong {header bs : Bytes} :
    header.length = headerLength → max < lengthOf header → Splits max (header ++ bs) [] .tooLong

/-! ## One frame -/

theorem splitExactly_of_length {n : Nat} (h : header.length = n) (bs : Bytes) :
    Bytes.splitExactly n (header ++ bs) = some (header, bs) :=
  h ▸ Bytes.splitExactly_append header bs

theorem read_of_short (h : bs.length < headerLength) : read max bs = .incomplete := by
  rw [read, Bytes.splitExactly_eq_none.2 h]

theorem read_of_long (hh : header.length = headerLength) (hlong : max < lengthOf header) :
    read max (header ++ bs) = .tooLong := by
  rw [read, splitExactly_of_length hh]
  exact if_pos hlong

theorem read_of_cut (hh : header.length = headerLength) (hmax : lengthOf header ≤ max)
    (hcut : bs.length < lengthOf header) : read max (header ++ bs) = .incomplete := by
  rw [read, splitExactly_of_length hh]
  simp only [if_neg (Nat.not_lt.2 hmax), Bytes.splitExactly_eq_none.2 hcut]

theorem read_of_body (hh : header.length = headerLength) (hlength : lengthOf header = body.length)
    (hmax : body.length ≤ max) : read max (header ++ body ++ rest) = .body body rest := by
  rw [read, List.append_assoc, splitExactly_of_length hh]
  simp only [hlength, if_neg (Nat.not_lt.2 hmax), Bytes.splitExactly_append]

/-- The ways in which a stream begins. -/
theorem read_cases (max : Nat) (bs : Bytes) :
    (bs.length < headerLength ∧ read max bs = .incomplete) ∨
    ∃ header bs', bs = header ++ bs' ∧ header.length = headerLength ∧
      ((max < lengthOf header ∧ read max bs = .tooLong) ∨
        (lengthOf header ≤ max ∧ bs'.length < lengthOf header ∧ read max bs = .incomplete) ∨
        ∃ body rest, bs' = body ++ rest ∧ lengthOf header = body.length ∧ body.length ≤ max ∧
          read max bs = .body body rest) := by
  rcases hs : Bytes.splitExactly headerLength bs with _ | ⟨header, bs'⟩
  · have hshort := Bytes.splitExactly_eq_none.1 hs
    exact .inl ⟨hshort, read_of_short hshort⟩
  · obtain ⟨rfl, hh⟩ := Bytes.eq_append_of_splitExactly hs
    refine .inr ⟨header, bs', rfl, hh, ?_⟩
    by_cases hlong : max < lengthOf header
    · exact .inl ⟨hlong, read_of_long hh hlong⟩
    · rw [Nat.not_lt] at hlong
      rcases hb : Bytes.splitExactly (lengthOf header) bs' with _ | ⟨body, rest⟩
      · have hcut := Bytes.splitExactly_eq_none.1 hb
        exact .inr (.inl ⟨hlong, hcut, read_of_cut hh hlong hcut⟩)
      · obtain ⟨rfl, hlength⟩ := Bytes.eq_append_of_splitExactly hb
        refine .inr (.inr ⟨body, rest, rfl, hlength.symm, hlength ▸ hlong, ?_⟩)
        rw [← List.append_assoc]
        exact read_of_body hh hlength.symm (hlength ▸ hlong)

theorem lengthOf_header (hl : body.length < 2 ^ 32) :
    lengthOf (LittleEndian.toBytes headerLength body.length) = body.length := by
  rw [lengthOf, LittleEndian.ofBytes_toBytes]
  exact Nat.mod_eq_of_lt hl

theorem read_frame (hm : body.length ≤ max) (hl : body.length < 2 ^ 32) (rest : Bytes) :
    read max (frame body ++ rest) = .body body rest :=
  read_of_body (LittleEndian.length_toBytes _ _) (lengthOf_header hl) hm

/-! ## A stream of frames -/

/-- What a stream is taken apart into goes by what is at its front. -/
theorem split_eq (max : Nat) (bs : Bytes) : split max bs =
    match read max bs with
    | .body body rest => (body :: (split max rest).1, (split max rest).2)
    | .incomplete => ([], .incomplete bs)
    | .tooLong => ([], .tooLong) := by
  rw [split]
  split
  next hr => rw [hr]
  next hr => rw [hr]
  next hr => rw [hr]

theorem split_of_body (h : read max bs = .body body rest) :
    split max bs = (body :: (split max rest).1, (split max rest).2) := by
  rw [split_eq, h]

theorem split_of_incomplete (h : read max bs = .incomplete) :
    split max bs = ([], .incomplete bs) := by
  rw [split_eq, h]

theorem split_of_tooLong (h : read max bs = .tooLong) : split max bs = ([], .tooLong) := by
  rw [split_eq, h]

theorem split_nil (max : Nat) : split max [] = ([], .incomplete []) :=
  split_of_incomplete (read_of_short (by decide))

theorem Splits.split_eq (h : Splits max bs bodies ending) : split max bs = (bodies, ending) := by
  induction h with
  | frame hh hlength hmax _ ih => rw [split_of_body (read_of_body hh hlength hmax), ih]
  | cutHeader hshort => exact split_of_incomplete (read_of_short hshort)
  | cutBody hh hmax hcut => exact split_of_incomplete (read_of_cut hh hmax hcut)
  | tooLong hh hlong => exact split_of_tooLong (read_of_long hh hlong)

theorem splits_split (max : Nat) (bs : Bytes) : Splits max bs (split max bs).1 (split max bs).2 := by
  induction hn : bs.length using Nat.strongRecOn generalizing bs with
  | ind n ih =>
    rcases read_cases max bs with ⟨hshort, hread⟩ | ⟨header, bs', rfl, hh, hcase⟩
    · rw [split_of_incomplete hread]
      exact .cutHeader hshort
    · rcases hcase with ⟨hlong, hread⟩ | ⟨hmax, hcut, hread⟩ | ⟨body, rest, rfl, hlength, hmax, hread⟩
      · rw [split_of_tooLong hread]
        exact .tooLong hh hlong
      · rw [split_of_incomplete hread]
        exact .cutBody hh hmax hcut
      · rw [split_of_body hread, ← List.append_assoc]
        exact .frame hh hlength hmax (ih _ (hn ▸ length_lt_of_read hread) rest rfl)

/-- Every stream is made of frames in one way. -/
theorem splits_iff : Splits max bs bodies ending ↔ split max bs = (bodies, ending) := by
  refine ⟨Splits.split_eq, fun h => ?_⟩
  have hs := splits_split max bs
  rwa [h] at hs

theorem split_frames (h : ∀ b ∈ bodies, b.length ≤ max ∧ b.length < 2 ^ 32) (rest : Bytes) :
    split max (bodies.flatMap frame ++ rest) =
      (bodies ++ (split max rest).1, (split max rest).2) := by
  induction bodies with
  | nil => rfl
  | cons b bodies ih =>
    obtain ⟨hm, hl⟩ := h b List.mem_cons_self
    rw [List.flatMap_cons, List.append_assoc, split_of_body (read_frame hm hl _),
      ih fun b hb => h b (List.mem_cons_of_mem _ hb)]
    rfl

/-- What has come and is not a complete frame is taken with what comes next. -/
theorem Splits.append_of_incomplete (h : Splits max bs bodies (.incomplete rest)) (bs' : Bytes) :
    split max (bs ++ bs') =
      (bodies ++ (split max (rest ++ bs')).1, (split max (rest ++ bs')).2) := by
  generalize hending : FrameEnd.incomplete rest = ending at h
  induction h with
  | frame hh hlength hmax _ ih =>
    rw [List.append_assoc, split_of_body (read_of_body hh hlength hmax), ih hending]
    rfl
  | cutHeader | cutBody =>
    cases hending
    rfl
  | tooLong => cases hending

/-- After a length above the maximum nothing counts. -/
theorem Splits.append_of_tooLong (h : Splits max bs bodies .tooLong) (bs' : Bytes) :
    split max (bs ++ bs') = (bodies, .tooLong) := by
  generalize hending : FrameEnd.tooLong = ending at h ⊢
  induction h with
  | frame hh hlength hmax _ ih =>
    rw [List.append_assoc, split_of_body (read_of_body hh hlength hmax), ih hending]
  | cutHeader | cutBody => cases hending
  | tooLong hh hlong =>
    rw [List.append_assoc]
    exact split_of_tooLong (read_of_long hh hlong)

end ConsensusCore.Frame
