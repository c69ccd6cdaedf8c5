import ConsensusCore.Proofs.Log.Repair
import Mathlib.Tactic.SplitIfs

/-!
# Records from a stream

Whatever bytes a stream has, and however they come, reading a record has one outcome. It depends
on the bytes alone: requests go on until there are as many bytes as were asked for, or no more,
and take none beyond (`Arrivals.Flows.take`), so that a record is read off the stream as it is off
its bytes (`Arrivals.Flows.readFrom`). There, the first eight bytes claim a length and a checksum,
and the outcome is decided by comparing them with what follows (`Record.read_eq`).

* `Record.reads_exactly`: what each outcome says about the bytes, and how many of them it takes.
-/

namespace ConsensusCore

/-! ## Streams -/

namespace Arrivals

variable {s : Arrivals} {max : Nat}

/-- A request meets no bytes only after the last ones have come. -/
def Flows (s : Arrivals) : Prop := .bytes [] ∉ s

instance : Decidable s.Flows := inferInstanceAs (Decidable (_ ∉ _))

theorem Flows.tail {a : Arrival} (h : Flows (a :: s)) : s.Flows :=
  fun hmem => h (List.mem_cons_of_mem a hmem)

@[simp] theorem bytes_nil : bytes [] = [] := rfl

@[simp] theorem bytes_interrupted (s : Arrivals) : bytes (.interrupted :: s) = s.bytes := rfl

@[simp] theorem bytes_cons (bs : Bytes) (s : Arrivals) :
    bytes (.bytes bs :: s) = bs ++ s.bytes := rfl

/-- What has come by the time that `n` bytes are asked for no more, and what is still to come. -/
theorem Flows.take (h : s.Flows) (n : Nat) :
    (Arrivals.take n s).1 = s.bytes.take n ∧ (Arrivals.take n s).2.bytes = s.bytes.drop n ∧
      (Arrivals.take n s).2.Flows := by
  fun_induction Arrivals.take n s with
  | case1 n => simp [h]
  | case2 s => simp [h]
  | case3 n s hn ih => exact ih h.tail
  | case4 bs s => simp [h]
  | case5 n bs s hn hnone =>
    rw [List.isEmpty_iff] at hnone
    subst hnone
    exact absurd List.mem_cons_self h
  | case6 n bs s hn hsome hlt =>
    -- the rest of the piece is left for the next request
    refine ⟨?_, ?_, ?_⟩
    · rw [bytes_cons, List.take_append_of_le_length (Nat.le_of_lt hlt)]
    · rw [bytes_cons, bytes_cons, List.drop_append_of_le_length (Nat.le_of_lt hlt)]
    · rw [Flows, List.mem_cons, not_or]
      refine ⟨fun heq => ?_, h.tail⟩
      rw [Arrival.bytes.injEq, eq_comm, List.drop_eq_nil_iff] at heq
      exact absurd heq (Nat.not_le.2 hlt)
  | case7 n bs s hn hsome hge more s' htake ih =>
    obtain ⟨hmore, hrest, hflows⟩ := ih h.tail
    rw [htake] at hmore hrest hflows
    have hle : bs.length ≤ n := Nat.not_lt.1 hge
    refine ⟨?_, ?_, hflows⟩
    · rw [bytes_cons, List.take_append, List.take_of_length_le hle, ← hmore]
    · rw [bytes_cons, List.drop_append, List.drop_eq_nil_of_le hle, List.nil_append, ← hrest]

/-- A record is read off a stream as it is off the bytes of the stream. -/
theorem Flows.readFrom (h : s.Flows) (max : Nat) :
    (Record.readFrom Arrivals.take max s).1 = (Record.read max s.bytes).1 ∧
      (Record.readFrom Arrivals.take max s).2.bytes = (Record.read max s.bytes).2 ∧
      (Record.readFrom Arrivals.take max s).2.Flows := by
  refine Record.readFrom_rel Arrivals.take (fun n bs => (bs.take n, bs.drop n))
    (fun s bs => s.bytes = bs ∧ s.Flows) max ?_ ⟨rfl, h⟩
  rintro n s _ ⟨rfl, hs⟩
  exact hs.take n

end Arrivals

/-! ## Outcomes -/

namespace Record

variable {max : Nat} {bs e : Bytes} {es : List Bytes} {s : Arrivals}

/-- The checksum in the header that the bytes begin with. -/
def stored (bs : Bytes) : UInt32 :=
  UInt32.ofNat (LittleEndian.ofBytes ((bs.take headerLength).take 4))

/-- The length that the header claims. -/
def claimed (bs : Bytes) : Nat := LittleEndian.ofBytes ((bs.take headerLength).drop 4)

/-- As many bytes after the header as it claims, if there are that many. -/
def body (bs : Bytes) : Bytes := (bs.drop headerLength).take (claimed bs)

/-- How many bytes are taken when reading comes to this. -/
def extent (bs : Bytes) : RecordRead → Nat
  | .record e => headerLength + e.length
  | .eof => 0
  | .torn n => n
  | .corrupt (.tooLong _ _) => headerLength
  | .corrupt (.checksum _ _) => headerLength + claimed bs

/-- What some readings come to, one after the other. -/
def readTimes {σ : Type} (take : Nat → σ → Bytes × σ) (max : Nat) : Nat → σ → List RecordRead
  | 0, _ => []
  | n + 1, s => (readFrom take max s).1 :: readTimes take max n (readFrom take max s).2

theorem length_body (bs : Bytes) :
    (body bs).length = min (claimed bs) (bs.length - headerLength) := by
  rw [body, List.length_take, List.length_drop]

/-- The outcome, and what is left of the bytes. -/
theorem read_eq (max : Nat) (bs : Bytes) : read max bs =
    if bs.length = 0 then (.eof, [])
    else if bs.length < headerLength then (.torn bs.length, [])
    else if max < claimed bs then (.corrupt (.tooLong (claimed bs) max), bs.drop headerLength)
    else if bs.length < headerLength + claimed bs then (.torn bs.length, [])
    else if Crc32.checksum (body bs) = stored bs then
      (.record (body bs), bs.drop (headerLength + claimed bs))
    else (.corrupt (.checksum (stored bs) (Crc32.checksum (body bs))),
      bs.drop (headerLength + claimed bs)) := by
  have hempty : (bs.take headerLength).isEmpty = true ↔ bs.length = 0 := by simp [headerLength]
  have hheader : (bs.take headerLength).length < headerLength ↔ bs.length < headerLength := by
    rw [List.length_take]
    omega
  have hstored : UInt32.ofNat (LittleEndian.ofBytes ((bs.take headerLength).take 4)) = stored bs :=
    rfl
  have hclaimed : LittleEndian.ofBytes ((bs.take headerLength).drop 4) = claimed bs := rfl
  have hbody : (bs.drop headerLength).take (claimed bs) = body bs := rfl
  have hrest : (bs.drop headerLength).drop (claimed bs) = bs.drop (headerLength + claimed bs) :=
    List.drop_drop
  simp only [read, readFrom, hempty, hheader, hstored, hclaimed, hbody, hrest]
  have hlength := length_body bs
  split_ifs with hnone hshort hlong hcut hend
  · rw [List.length_eq_zero_iff.1 hnone, List.drop_nil]
  · rw [List.take_of_length_le (Nat.le_of_lt hshort), List.drop_eq_nil_of_le (Nat.le_of_lt hshort)]
  · rfl
  · have hall : headerLength + (body bs).length = bs.length := by omega
    rw [hall, List.drop_eq_nil_of_le (Nat.le_of_lt hend)]
  -- in the other cases both sides are the same, or they disagree on whether the body is whole
  all_goals first | rfl | omega

/-! ## What the outcomes say -/

/-- Where the bytes begin with a record, it is read. -/
theorem read_eq_record_iff (hmax : max < 2 ^ 32) :
    (read max bs).1 = .record e ↔ e.length ≤ max ∧ ∃ rest, bs = encode e ++ rest := by
  constructor
  · intro h
    obtain ⟨-, hread⟩ | ⟨-, -, hread⟩ | ⟨e', rest, hbs, ⟨hle, -⟩, hread⟩ | ⟨fault, hread⟩ :=
      read_cases max bs <;> rw [hread] at h <;> cases h
    exact ⟨hle, rest, hbs⟩
  · rintro ⟨hle, rest, rfl⟩
    rw [read_encode ⟨hle, Nat.lt_of_le_of_lt hle hmax⟩]

theorem read_eq_eof_iff : (read max bs).1 = .eof ↔ bs = [] := by
  rw [read_eq, ← List.length_eq_zero_iff]
  split_ifs with hnone <;> simp [hnone]

theorem read_eq_torn_iff {n : Nat} : (read max bs).1 = .torn n ↔ n = bs.length ∧
    (0 < n ∧ n < headerLength ∨
      headerLength ≤ n ∧ claimed bs ≤ max ∧ n < headerLength + claimed bs) := by
  have hheader : headerLength = 8 := rfl
  rw [read_eq]
  split_ifs <;> simp only [RecordRead.torn.injEq, false_iff] <;> omega

theorem read_eq_corrupt_iff {fault : RecordFault} : (read max bs).1 = .corrupt fault ↔
    headerLength ≤ bs.length ∧ max < claimed bs ∧ fault = .tooLong (claimed bs) max ∨
    headerLength + claimed bs ≤ bs.length ∧ claimed bs ≤ max ∧
      Crc32.checksum (body bs) ≠ stored bs ∧
      fault = .checksum (stored bs) (Crc32.checksum (body bs)) := by
  have hheader : headerLength = 8 := rfl
  rw [read_eq]
  split_ifs <;> simp only [RecordRead.corrupt.injEq, false_iff] <;> grind

/-- What is left is what has not been taken. -/
theorem read_rest (max : Nat) (bs : Bytes) :
    (read max bs).2 = bs.drop (extent bs (read max bs).1) ∧
      extent bs (read max bs).1 ≤ bs.length := by
  have hlength := length_body bs
  rw [read_eq]
  split_ifs with hnone hshort hlong hcut hsum
  · exact ⟨(List.length_eq_zero_iff.1 hnone).symm, Nat.zero_le _⟩
  · exact ⟨List.drop_length.symm, Nat.le_refl _⟩
  · exact ⟨rfl, Nat.not_lt.1 hshort⟩
  · exact ⟨List.drop_length.symm, Nat.le_refl _⟩
  · have hwhole : (body bs).length = claimed bs := by omega
    refine ⟨?_, ?_⟩
    · rw [extent, hwhole]
    · rw [extent, hwhole]
      exact Nat.not_lt.1 hcut
  · exact ⟨rfl, Nat.not_lt.1 hcut⟩

/-! ## Reading on -/

theorem readTimes_of_bytes_eq_nil (h : s.Flows) (hnone : s.bytes = []) (k : Nat) :
    readTimes Arrivals.take max k s = List.replicate k .eof := by
  induction k generalizing s with
  | zero => rfl
  | succ k ih =>
    obtain ⟨hread, hrest, hflows⟩ := h.readFrom max
    rw [hnone, read_nil] at hread hrest
    rw [readTimes, hread, ih hflows hrest, List.replicate_succ]

/-- Records are read one after the other, and then there are no more. -/
theorem readTimes_encodeAll (h : s.Flows) (hfits : ∀ e ∈ es, Fits max e)
    (hbytes : s.bytes = encodeAll es) (k : Nat) :
    readTimes Arrivals.take max (es.length + k) s =
      es.map .record ++ List.replicate k .eof := by
  induction es generalizing s with
  | nil => rw [List.length_nil, Nat.zero_add, readTimes_of_bytes_eq_nil h hbytes]; rfl
  | cons e es ih =>
    obtain ⟨hread, hrest, hflows⟩ := h.readFrom max
    obtain ⟨he, hes⟩ := List.forall_mem_cons.1 hfits
    rw [hbytes, encodeAll_cons, read_encode he] at hread hrest
    rw [List.length_cons, Nat.add_right_comm, readTimes, hread, ih hflows hes hrest]
    rfl

/-- Reading a record has one outcome for any bytes, in whatever pieces and with whatever
    interruptions they come: a record if they begin with it; the end if there are none; torn if
    they end in a header, or before the end of the envelope that a header within the maximum
    claims; and corrupt otherwise, which is known after the header if that claims too much, and
    after the envelope if the checksum is wrong. So records that are written one after the other
    are read one after the other. -/
theorem reads_exactly (hmax : max < 2 ^ 32) (hflows : s.Flows) :
    (∀ e, (readFrom Arrivals.take max s).1 = .record e ↔
      e.length ≤ max ∧ ∃ rest, s.bytes = encode e ++ rest) ∧
    ((readFrom Arrivals.take max s).1 = .eof ↔ s.bytes = []) ∧
    (∀ n, (readFrom Arrivals.take max s).1 = .torn n ↔ n = s.bytes.length ∧
      (0 < n ∧ n < headerLength ∨
        headerLength ≤ n ∧ claimed s.bytes ≤ max ∧ n < headerLength + claimed s.bytes)) ∧
    (∀ fault, (readFrom Arrivals.take max s).1 = .corrupt fault ↔
      headerLength ≤ s.bytes.length ∧ max < claimed s.bytes ∧
        fault = .tooLong (claimed s.bytes) max ∨
      headerLength + claimed s.bytes ≤ s.bytes.length ∧ claimed s.bytes ≤ max ∧
        Crc32.checksum (body s.bytes) ≠ stored s.bytes ∧
        fault = .checksum (stored s.bytes) (Crc32.checksum (body s.bytes))) ∧
    ((readFrom Arrivals.take max s).2.bytes =
        s.bytes.drop (extent s.bytes (readFrom Arrivals.take max s).1) ∧
      extent s.bytes (readFrom Arrivals.take max s).1 ≤ s.bytes.length) ∧
    ∀ es, (∀ e ∈ es, e.length ≤ max) → s.bytes = encodeAll es → ∀ k,
      readTimes Arrivals.take max (es.length + k) s =
        es.map .record ++ List.replicate k .eof := by
  obtain ⟨hread, hrest, -⟩ := hflows.readFrom max
  rw [hread, hrest]
  exact ⟨fun _ => read_eq_record_iff hmax, read_eq_eof_iff, fun _ => read_eq_torn_iff,
    fun _ => read_eq_corrupt_iff, read_rest max s.bytes, fun es hes hbytes k =>
      readTimes_encodeAll hflows
        (fun e he => ⟨hes e he, Nat.lt_of_le_of_lt (hes e he) hmax⟩) hbytes k⟩

/-- Two records, the second of an empty envelope, in two pieces between interruptions. -/
def choppy : Arrivals :=
  [.interrupted, .bytes ((encodeAll [[1, 2], []]).take 5), .interrupted, .interrupted,
    .bytes ((encodeAll [[1, 2], []]).drop 5)]

theorem bytes_choppy : choppy.bytes = encodeAll [[1, 2], []] := by
  simp only [choppy, Arrivals.bytes_interrupted, Arrivals.bytes_cons, Arrivals.bytes_nil,
    List.append_nil, List.take_append_drop]

/-- Both are read, and then the end. -/
theorem choppy_reads : readTimes Arrivals.take 2 3 choppy = [.record [1, 2], .record [], .eof] :=
  (reads_exactly (by decide) (by decide)).2.2.2.2.2 [[1, 2], []] (by decide) bytes_choppy 1

end Record

end ConsensusCore
