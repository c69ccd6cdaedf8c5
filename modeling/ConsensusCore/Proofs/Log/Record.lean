import ConsensusCore.Log.Record
import ConsensusCore.Proofs.Bytes.LittleEndian

/-!
# Records one after the other

The content of a segment is the records of some envelopes, one after the other
(`Record.encodeAll`). Reading takes them off again in the order in which they were
written, whatever follows, if their envelopes fit (`Record.Fits`).

A byte string that is cut off inside of records is those of them that are whole, and
the beginning of another one (`take_encodeAll`), which reads as torn, or as the end if
nothing of it is left. Repairing takes that beginning away, and nothing else.

Reading a record asks its source for bytes and nothing else, so sources that go on
giving the same bytes give the same records (`readFrom_rel`).
-/

namespace ConsensusCore.Record

/-- The envelope is one that readers accept, and its length fits the header. -/
def Fits (max : Nat) (e : Bytes) : Prop := e.length ≤ max ∧ e.length < 2 ^ 32

/-- The records of some envelopes. -/
def encodeAll (es : List Bytes) : Bytes := es.flatMap encode

/-- The envelopes of which the records end within the first `n` bytes. -/
def whole : Nat → List Bytes → List Bytes
  | _, [] => []
  | n, e :: es =>
    if headerLength + e.length ≤ n then e :: whole (n - (headerLength + e.length)) es else []

variable {max n k : Nat} {e : Bytes} {es : List Bytes}

@[simp] theorem length_encode (e : Bytes) : (encode e).length = headerLength + e.length := by
  simp [encode, headerLength]
  omega

@[simp] theorem encodeAll_nil : encodeAll [] = [] := rfl

@[simp] theorem encodeAll_cons (e : Bytes) (es : List Bytes) :
    encodeAll (e :: es) = encode e ++ encodeAll es :=
  List.flatMap_cons

@[simp] theorem encodeAll_append (es es' : List Bytes) :
    encodeAll (es ++ es') = encodeAll es ++ encodeAll es' :=
  List.flatMap_append

theorem length_encodeAll (es : List Bytes) : (encodeAll es).length = totalLength es := by
  induction es with
  | nil => rfl
  | cons e es ih =>
    rw [encodeAll_cons, List.length_append, ih, length_encode]
    rfl

/-! ## Sources -/

/-- Sources that give the same bytes, whatever is asked of them, give the same record. -/
theorem readFrom_rel {σ τ : Type} (take : Nat → σ → Bytes × σ) (take' : Nat → τ → Bytes × τ)
    (R : σ → τ → Prop) (max : Nat)
    (h : ∀ n s t, R s t → (take n s).1 = (take' n t).1 ∧ R (take n s).2 (take' n t).2)
    {s : σ} {t : τ} (hst : R s t) :
    (readFrom take max s).1 = (readFrom take' max t).1 ∧
      R (readFrom take max s).2 (readFrom take' max t).2 := by
  obtain ⟨hbytes, hrel⟩ := h headerLength s t hst
  simp only [readFrom]
  simp only [hbytes]
  split
  · exact ⟨rfl, hrel⟩
  split
  · exact ⟨rfl, hrel⟩
  split
  · exact ⟨rfl, hrel⟩
  -- the envelope is asked for only if its length is one that fits
  obtain ⟨hbytes', hrel'⟩ := h _ _ _ hrel
  rw [hbytes']
  split
  · exact ⟨rfl, hrel'⟩
  split
  · exact ⟨rfl, hrel'⟩
  · exact ⟨rfl, hrel'⟩

/-! ## Reading back -/

/-- The header of the record of an envelope. -/
def header (e : Bytes) : Bytes :=
  LittleEndian.toBytes 4 (Crc32.checksum e).toNat ++ LittleEndian.toBytes 4 e.length

theorem encode_eq (e : Bytes) : encode e = header e ++ e := rfl

theorem length_header (e : Bytes) : (header e).length = headerLength := by
  simp [header, headerLength]

theorem header_ne_nil (e : Bytes) : (header e).isEmpty = false := by
  rw [List.isEmpty_eq_false_iff, ← List.length_pos_iff, length_header]
  decide

theorem stored_header (e : Bytes) :
    UInt32.ofNat (LittleEndian.ofBytes ((header e).take 4)) = Crc32.checksum e := by
  have h : (header e).take 4 = LittleEndian.toBytes 4 (Crc32.checksum e).toNat := by
    simp [header]
  have hlt : (Crc32.checksum e).toNat < 256 ^ 4 := (Crc32.checksum e).toNat_lt
  rw [h, LittleEndian.ofBytes_toBytes, Nat.mod_eq_of_lt hlt, UInt32.ofNat_toNat]

theorem length_stored_header (h : e.length < 2 ^ 32) :
    LittleEndian.ofBytes ((header e).drop 4) = e.length := by
  have hd : (header e).drop 4 = LittleEndian.toBytes 4 e.length := by
    simp [header]
  have hlt : e.length < 256 ^ 4 := h
  rw [hd, LittleEndian.ofBytes_toBytes, Nat.mod_eq_of_lt hlt]

theorem take_encode_append (e rest : Bytes) :
    (encode e ++ rest).take headerLength = header e := by
  rw [encode_eq, List.append_assoc, List.take_left' (length_header e)]

theorem drop_encode_append (e rest : Bytes) :
    (encode e ++ rest).drop headerLength = e ++ rest := by
  rw [encode_eq, List.append_assoc, List.drop_left' (length_header e)]

theorem read_nil : read max [] = (.eof, []) := by simp [read, readFrom]

/-- A record is read back, whatever follows it. -/
theorem read_encode (h : Fits max e) (rest : Bytes) :
    read max (encode e ++ rest) = (.record e, rest) := by
  simp only [read, readFrom, take_encode_append, drop_encode_append, header_ne_nil, length_header,
    Nat.lt_irrefl, if_false, length_stored_header h.2, stored_header, Nat.not_lt.2 h.1,
    List.take_left, List.drop_left, if_true, Bool.false_eq_true]

/-- What is read as a record has a length that readers accept. -/
theorem length_le_of_read {bs : Bytes} (h : (read max bs).1 = .record e) : e.length ≤ max := by
  simp only [read, readFrom] at h
  split at h
  · cases h
  split at h
  · cases h
  split at h
  · cases h
  next hlen =>
    split at h
    · cases h
    split at h
    · cases h
      exact Nat.le_trans (List.length_take_le _ _) (Nat.not_lt.1 hlen)
    · cases h

/-- Readers accept the record of an envelope if they accept its length. -/
theorem read_encode_iff (hmax : max < 2 ^ 32) :
    (read max (encode e)).1 = .record e ↔ e.length ≤ max := by
  refine ⟨length_le_of_read, fun h => ?_⟩
  rw [← List.append_nil (encode e), read_encode ⟨h, Nat.lt_of_le_of_lt h hmax⟩]

/-- A record that is longer than readers accept is reported as such. -/
theorem read_encode_of_long (h : e.length < 2 ^ 32) (hlong : max < e.length) (rest : Bytes) :
    read max (encode e ++ rest) = (.corrupt (.tooLong e.length max), e ++ rest) := by
  simp only [read, readFrom, take_encode_append, drop_encode_append, header_ne_nil, length_header,
    Nat.lt_irrefl, if_false, length_stored_header h, if_pos hlong, Bool.false_eq_true]

/-- The beginning of a record reads as torn, if there is anything of it. -/
theorem read_take_encode (h : Fits max e) (hn : n < (encode e).length) :
    read max ((encode e).take n) = (if n = 0 then .eof else .torn n, []) := by
  rw [length_encode] at hn
  have hlen : ((encode e).take n).length = n := by
    rw [List.length_take, length_encode]
    omega
  by_cases hshort : n < headerLength
  · have hall : ((encode e).take n).take headerLength = (encode e).take n :=
      List.take_of_length_le (by omega)
    have hnone : ((encode e).take n).drop headerLength = [] :=
      List.drop_eq_nil_of_le (by omega)
    by_cases h0 : n = 0
    · subst h0
      simp [read, readFrom]
    · have hne : ((encode e).take n).isEmpty = false := by
        rw [List.isEmpty_eq_false_iff, ← List.length_pos_iff, hlen]
        omega
      simp [read, readFrom, hall, hnone, hne, hlen, hshort, h0]
  · have htake : ((encode e).take n).take headerLength = header e := by
      rw [List.take_take, Nat.min_eq_left (by omega), encode_eq, List.take_left' (length_header e)]
    have hdrop : ((encode e).take n).drop headerLength = e.take (n - headerLength) := by
      rw [List.drop_take, encode_eq, List.drop_left' (length_header e)]
    have hpart : (e.take (n - headerLength)).length = n - headerLength := by
      rw [List.length_take]
      omega
    have hcut : n - headerLength < e.length := by omega
    have hsum : headerLength + (n - headerLength) = n := by omega
    have h0 : n ≠ 0 := by
      simp only [headerLength] at hshort
      omega
    simp only [read, readFrom, htake, hdrop, header_ne_nil, length_header, Nat.lt_irrefl,
      if_false, length_stored_header h.2, Nat.not_lt.2 h.1, Bool.false_eq_true]
    rw [List.take_of_length_le (by omega), List.drop_eq_nil_of_le (by omega), hpart,
      if_pos hcut, hsum, if_neg h0]

/-! ## Scanning -/

/-- What is left of a record that was cut off, or nothing at all. -/
def Torn (max : Nat) (t : Bytes) : Prop :=
  ∃ e n, Fits max e ∧ n < (encode e).length ∧ t = (encode e).take n

theorem torn_nil (max : Nat) : Torn max [] :=
  ⟨[], 0, ⟨Nat.zero_le max, by decide⟩, by decide, rfl⟩

theorem Torn.take {t : Bytes} (h : Torn max t) (k : Nat) : Torn max (t.take k) := by
  obtain ⟨e, n, he, hn, rfl⟩ := h
  refine ⟨e, min k n, he, by omega, ?_⟩
  rw [List.take_take]

theorem scan_of_record {bs rest : Bytes} (h : read max bs = (.record e, rest)) :
    scan max bs = (e :: (scan max rest).1, (scan max rest).2) := by
  rw [scan]
  split
  · next h' =>
    rw [h] at h'
    cases h'
    rfl
  · next hne h' =>
    rw [h] at h'
    cases h'
    exact absurd rfl (hne e)

theorem scan_of_ending {bs rest : Bytes} {r : RecordRead} (h : read max bs = (r, rest))
    (hr : ∀ e, r ≠ .record e) : scan max bs = ([], r) := by
  rw [scan]
  split
  · next h' =>
    rw [h] at h'
    cases h'
    exact absurd rfl (hr _)
  · next h' =>
    rw [h] at h'
    cases h'
    rfl

theorem scan_encodeAll (h : ∀ e ∈ es, Fits max e) (rest : Bytes) :
    scan max (encodeAll es ++ rest) = (es ++ (scan max rest).1, (scan max rest).2) := by
  induction es with
  | nil => rfl
  | cons e es ih =>
    have hread := read_encode (h e List.mem_cons_self) (encodeAll es ++ rest)
    rw [encodeAll_cons, List.append_assoc, scan_of_record hread,
      ih fun e' he' => h e' (List.mem_cons_of_mem _ he')]
    rfl

theorem scan_torn {t : Bytes} (h : Torn max t) :
    scan max t = ([], if t = [] then .eof else .torn t.length) := by
  obtain ⟨e, n, he, hn, rfl⟩ := h
  have hread := read_take_encode he hn
  by_cases h0 : n = 0
  · subst h0
    simpa using scan_of_ending hread (by simp)
  · have hlen : ((encode e).take n).length = n := by
      rw [List.length_take]
      omega
    have hne : (encode e).take n ≠ [] := by
      rw [← List.length_pos_iff, hlen]
      omega
    rw [if_neg h0] at hread
    rw [scan_of_ending hread (by simp), if_neg hne, hlen]

theorem scan_encodeAll_torn {t : Bytes} (h : ∀ e ∈ es, Fits max e) (ht : Torn max t) :
    scan max (encodeAll es ++ t) = (es, if t = [] then .eof else .torn t.length) := by
  rw [scan_encodeAll h, scan_torn ht, List.append_nil]

/-- Whole records never end torn, whatever readers accept. -/
theorem scan_encodeAll_ne_torn (h : ∀ e ∈ es, e.length < 2 ^ 32) :
    (scan max (encodeAll es)).2 ≠ .torn n := by
  induction es with
  | nil =>
    rw [encodeAll_nil, scan_torn (torn_nil max)]
    simp
  | cons e es ih =>
    have he := h e List.mem_cons_self
    rw [encodeAll_cons]
    by_cases hlong : max < e.length
    · rw [scan_of_ending (read_encode_of_long he hlong _) (by simp)]
      simp
    · rw [scan_of_record (read_encode ⟨Nat.not_lt.1 hlong, he⟩ _)]
      exact ih fun e' he' => h e' (List.mem_cons_of_mem _ he')

/-- Whole records end in a fault if readers do not accept all of them. -/
theorem length_le_of_scan (h : ∀ e ∈ es, e.length < 2 ^ 32)
    (hscan : ∀ fault, (scan max (encodeAll es)).2 ≠ .corrupt fault) : ∀ e ∈ es, e.length ≤ max := by
  induction es with
  | nil => exact fun e he => by cases he
  | cons e es ih =>
    have he := h e List.mem_cons_self
    rw [encodeAll_cons] at hscan
    by_cases hlong : max < e.length
    · rw [scan_of_ending (read_encode_of_long he hlong _) (by simp)] at hscan
      exact absurd rfl (hscan _)
    · have hle := Nat.not_lt.1 hlong
      rw [scan_of_record (read_encode ⟨hle, he⟩ _)] at hscan
      exact List.forall_mem_cons.2 ⟨hle, ih (fun e' he' => h e' (List.mem_cons_of_mem _ he')) hscan⟩

theorem repaired_of_short (h : ∀ e ∈ es, e.length < 2 ^ 32) :
    repaired max (encodeAll es) = encodeAll es := by
  rw [repaired]
  split
  · next n hscan => exact absurd (congrArg Prod.snd hscan) (scan_encodeAll_ne_torn h)
  · rfl

/-- Only whole records are left of a segment, and all of them. -/
theorem repaired_encodeAll {t : Bytes} (h : ∀ e ∈ es, Fits max e) (ht : Torn max t) :
    repaired max (encodeAll es ++ t) = encodeAll es := by
  have hscan := scan_encodeAll_torn h ht
  by_cases h0 : t = []
  · subst h0
    rw [if_pos rfl, List.append_nil] at hscan
    simp only [repaired, List.append_nil, hscan]
  · simp only [repaired, hscan, if_neg h0, ← length_encodeAll, List.take_left]

/-- What is left of records that are cut off: the whole ones, and one torn. -/
theorem take_encodeAll {t : Bytes} (h : ∀ e ∈ es, Fits max e) (ht : Torn max t) (n : Nat) :
    ∃ t', Torn max t' ∧ (encodeAll es ++ t).take n = encodeAll (whole n es) ++ t' := by
  induction es generalizing n with
  | nil => exact ⟨t.take n, ht.take n, rfl⟩
  | cons e es ih =>
    have he := h e List.mem_cons_self
    rw [encodeAll_cons, List.append_assoc]
    by_cases hn : headerLength + e.length ≤ n
    · obtain ⟨t', ht', htake⟩ := ih (fun e' he' => h e' (List.mem_cons_of_mem _ he'))
        (n - (headerLength + e.length))
      refine ⟨t', ht', ?_⟩
      rw [whole, if_pos hn, encodeAll_cons, List.append_assoc, ← htake, List.take_append,
        length_encode, List.take_of_length_le (by simpa using hn)]
    · -- the cut is inside of this record
      refine ⟨(encode e).take n, ⟨e, n, he, by rw [length_encode]; omega, rfl⟩, ?_⟩
      rw [whole, if_neg hn, List.take_append_of_le_length (by rw [length_encode]; omega)]
      rfl

end ConsensusCore.Record
