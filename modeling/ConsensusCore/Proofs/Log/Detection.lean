import ConsensusCore.Proofs.Bytes.Crc32
import ConsensusCore.Proofs.Log.Reopening
import ConsensusCore.Proofs.Log.Replay
import ConsensusCore.Proofs.Log.Stepping
import ConsensusCore.Proofs.Log.Tracking

/-!
# Damage to one byte

A byte of a record is replaced by another one. If it is one of the checksum or of the envelope,
the length is still the right one, so that just the bytes of the record are looked at, and the
checksum is not that of the envelope any more (`Record.read_set`). A reader gets to the record
through those before it, which nobody has touched, and fails there (`Log.fails_at`). Opening
the log once more does not take the record for one that was not written to its end, and leaves
the damage where it is (`Record.repaired_of_corrupt`).

* `Workbench.detects_damage`: so it is for any record in a log, after any run.
-/

namespace ConsensusCore

/-! ## Damaged records -/

namespace Record

variable {max k : Nat} {e rest : Bytes} {es : List Bytes} {b : UInt8} {fault : RecordFault}

/-- With a header that has its length, an envelope is looked at as a whole. -/
theorem read_of_header {header : Bytes} (hheader : header.length = headerLength)
    (hlen : LittleEndian.ofBytes (header.drop 4) = e.length) (hmax : e.length ≤ max)
    (rest : Bytes) : read max (header ++ e ++ rest) =
      (if Crc32.checksum e = UInt32.ofNat (LittleEndian.ofBytes (header.take 4)) then .record e
        else .corrupt (.checksum (UInt32.ofNat (LittleEndian.ofBytes (header.take 4)))
          (Crc32.checksum e)), rest) := by
  have hne : header.isEmpty = false := by
    rw [List.isEmpty_eq_false_iff, ← List.length_pos_iff, hheader]
    decide
  have htake : (header ++ e ++ rest).take headerLength = header := by
    rw [List.append_assoc, List.take_left' hheader]
  have hdrop : (header ++ e ++ rest).drop headerLength = e ++ rest := by
    rw [List.append_assoc, List.drop_left' hheader]
  simp only [read, readFrom, htake, hdrop, hne, hheader, hlen, Nat.lt_irrefl, if_false,
    Nat.not_lt.2 hmax, List.take_left, List.drop_left, Bool.false_eq_true]
  split <;> rfl

/-- Another byte in the checksum of a record makes it another checksum. -/
theorem stored_set_ne (hk : k < 4) (hb : (header e)[k]? ≠ some b) :
    UInt32.ofNat (LittleEndian.ofBytes (((header e).set k b).take 4)) ≠ Crc32.checksum e := by
  intro hstored
  have hlen : ((header e).take 4).length = 4 := by
    rw [List.length_take, length_header, headerLength]
    rfl
  have hlt : ∀ bs : Bytes, bs.length = 4 → LittleEndian.ofBytes bs < 2 ^ 32 := fun bs hbs =>
    Nat.lt_of_lt_of_eq (LittleEndian.ofBytes_lt bs) (by rw [hbs]; rfl)
  rw [← stored_header, List.take_set, ← UInt32.toNat_inj, UInt32.toNat_ofNat',
    UInt32.toNat_ofNat', Nat.mod_eq_of_lt (hlt _ ((List.length_set).trans hlen)),
    Nat.mod_eq_of_lt (hlt _ hlen), LittleEndian.ofBytes_inj List.length_set] at hstored
  have hget := congrArg (·[k]?) hstored
  rw [List.getElem?_set_self (hlen.symm ▸ hk), List.getElem?_take_of_lt hk] at hget
  exact hb hget.symm

/-- A record in which a byte is replaced by another one, of the checksum or of the envelope,
    cannot be trusted. All of it is taken, and nothing else. -/
theorem read_set (h : Fits max e) (hlt : k < (encode e).length)
    (hpart : k < 4 ∨ headerLength ≤ k) (hb : (encode e)[k]? ≠ some b) (rest : Bytes) :
    ∃ stored computed, stored ≠ computed ∧
      read max ((encode e).set k b ++ rest) = (.corrupt (.checksum stored computed), rest) := by
  rw [encode_eq] at hb ⊢
  rcases hpart with hk | hle
  · have hheader : k < (header e).length := by
      rw [length_header, headerLength]
      omega
    rw [List.getElem?_append_left hheader] at hb
    have hne := stored_set_ne hk hb
    refine ⟨_, _, hne, ?_⟩
    rw [List.set_append_left _ _ hheader, read_of_header (List.length_set.trans (length_header e))
      (by rw [List.drop_set_of_lt hk, length_stored_header h.2]) h.1, if_neg hne.symm]
  · rw [length_encode] at hlt
    rw [← length_header e] at hle
    have hlt' : k - (header e).length < e.length := by
      have := length_header e
      omega
    rw [List.getElem?_append_right hle, List.getElem?_eq_getElem hlt', ne_eq,
      Option.some.injEq, eq_comm] at hb
    have hne := Crc32.checksum_set_ne hlt' hb
    have hstored := stored_header e
    refine ⟨_, _, hne.symm, ?_⟩
    rw [List.set_append_right _ _ hle, read_of_header (length_header e)
      (by rw [length_stored_header h.2, List.length_set]) (List.length_set.symm ▸ h.1), hstored,
      if_neg hne]

/-- Records that cannot be read to their end are not repaired. -/
theorem repaired_of_corrupt (hes : ∀ e ∈ es, Fits max e)
    (hrest : (read max rest).1 = .corrupt fault) :
    repaired max (encodeAll es ++ rest) = encodeAll es ++ rest := by
  have hscan : scan max rest = ([], .corrupt fault) :=
    scan_of_ending (Prod.ext hrest rfl) (by simp)
  simp only [repaired, scan_encodeAll hes, hscan]

end Record

/-! ## Reading up to an error -/

/-- Reading with the reader again and again gives some messages, and then fails. -/
inductive Reader.Fails (log : Log) (e : LogError) : Reader → List Input → Prop
  | done {r r' : Reader} : log.read r = (.error e, r') → Fails log e r []
  | more {r r' : Reader} {m : Input} {ms : List Input} :
    log.read r = (.ok (some m), r') → Fails log e r' ms → Fails log e r (m :: ms)

/-- A new reader yields some messages, and then fails. -/
def Log.FailsAfter (log : Log) (ms : List Input) (e : LogError) : Prop :=
  ∃ r, log.newReader = .ok r ∧ r.Fails log e ms

namespace Reader

variable {log : Log} {e : LogError} {r r' : Reader} {max i o : Nat} {f : FileId}
  {ms ms' : List Input} {rest : Bytes}

theorem Fails.congr (hread : log.read r = log.read r') (h : Fails log e r' ms) :
    Fails log e r ms := by
  cases h with
  | done h => exact .done (hread.trans h)
  | more h hrest => exact .more (hread.trans h) hrest

/-- A reader in step reads the messages that begin at its place, and then what comes after
    them. -/
theorem At.fails_after (hregistry : log.registry = Workbench.registry) (h : r.At log max i o)
    (hfile : log.disk.fileAt (log.group.segmentRoute i) = .ok f)
    (hcontent : (log.disk.content f).drop o = frames ms ++ rest)
    (hfits : ∀ m ∈ ms, Record.Fits max m.envelope)
    (hafter : ∀ r', r'.At log max i (o + (frames ms).length) → Fails log e r' ms') :
    Fails log e r (ms ++ ms') := by
  induction ms generalizing r o with
  | nil => exact hafter r h
  | cons m ms ih =>
    have hdecode : log.registry.decode m.envelope = .ok m :=
      hregistry ▸ Registry.decode_inputs m
    rw [frames_cons, List.append_assoc] at hcontent
    have hout : (Record.read max ((log.disk.content f).drop o)).1 = .record m.envelope := by
      rw [hcontent, Record.read_encode (hfits m List.mem_cons_self)]
    obtain ⟨r₁, hread, hat⟩ := h.read_message hfile hout hdecode
    refine .more hread (ih hat ?_ (fun m' hm' => hfits m' (List.mem_cons_of_mem _ hm'))
      fun r' hr' => hafter r' ?_)
    · rw [← List.drop_drop, hcontent, ← Record.length_encode, List.drop_left]
    · rwa [frames_cons, List.length_append, Record.length_encode, ← Nat.add_assoc]

/-- It goes through sealed segments one after the other. -/
theorem At.fails_behind (hregistry : log.registry = Workbench.registry)
    {segments : List (List Input)} (h : r.At log max i 0)
    (hsealed : i + segments.length ≤ log.group.maxIndex)
    (hsegments : ∀ k ms, segments[k]? = some ms → ∃ f,
      log.disk.fileAt (log.group.segmentRoute (i + k)) = .ok f ∧ log.disk.content f = frames ms)
    (hfits : ∀ m ∈ segments.flatten, Record.Fits max m.envelope)
    (hafter : ∀ r', r'.At log max (i + segments.length) 0 → Fails log e r' ms') :
    Fails log e r (segments.flatten ++ ms') := by
  induction segments generalizing r i with
  | nil => exact hafter r h
  | cons ms segments ih =>
    rw [List.length_cons] at hsealed hafter
    rw [List.flatten_cons, List.forall_mem_append] at hfits
    obtain ⟨f, hfile, hcontent⟩ := hsegments 0 ms rfl
    rw [Nat.add_zero] at hfile
    have hwhole : (log.disk.content f).drop 0 = frames ms ++ [] := by
      rw [hcontent, List.drop_zero, List.append_nil]
    rw [List.flatten_cons, List.append_assoc]
    refine h.fails_after hregistry hfile hwhole hfits.1 fun r₁ h₁ => ?_
    -- at the end of the segment, the reader goes on to the next one
    obtain ⟨r₂, hread, h₂⟩ := h₁.read_next hfile (by omega)
      (by rw [hcontent, Nat.zero_add, List.drop_length, Record.read_nil])
    refine .congr hread (ih h₂ (by omega) (fun k ms hms => ?_) hfits.2 fun r' hr' => hafter r' ?_)
    · have hnext := hsegments (k + 1) ms hms
      rwa [Nat.add_comm k 1, ← Nat.add_assoc] at hnext
    · rwa [Nat.add_comm segments.length 1, ← Nat.add_assoc]

end Reader

/-! ## Places of records -/

/-- Among records in a segment, each is that of a message, behind the records before it. -/
theorem placed_split {index offset : Nat} {ms : List Input} {pre post : List Entry} {e : Entry}
    (h : placed index offset ms = pre ++ e :: post) : ∃ before after,
      ms = before ++ e.message :: after ∧ pre.map Entry.message = before ∧
        e = .ofMessage index (offset + (frames before).length) e.message := by
  induction pre generalizing offset ms with
  | nil =>
    cases ms with
    | nil => cases h
    | cons m ms =>
      rw [placed_cons, List.nil_append] at h
      obtain ⟨rfl, -⟩ := List.cons.inj h
      exact ⟨[], ms, rfl, rfl, rfl⟩
  | cons e' pre ih =>
    cases ms with
    | nil => cases h
    | cons m ms =>
      rw [placed_cons, List.cons_append] at h
      obtain ⟨rfl, hrest⟩ := List.cons.inj h
      obtain ⟨before, after, rfl, hpre, he⟩ := ih hrest
      refine ⟨m :: before, after, rfl, by rw [List.map_cons, hpre]; rfl, ?_⟩
      rw [frames_cons, List.length_append, ← frames_singleton, ← Nat.add_assoc]
      exact he

/-- Among those in some segments, it is in one of them, behind all those before it. -/
theorem entriesOf_split {index : Nat} {segments : List (List Input)} {pre post : List Entry}
    {e : Entry} (h : entriesOf index segments = pre ++ e :: post) : ∃ k before after,
      segments[k]? = some (before ++ e.message :: after) ∧
        pre.map Entry.message = (segments.take k).flatten ++ before ∧
        e = .ofMessage (index + k) (frames before).length e.message := by
  induction segments generalizing index pre with
  | nil => exact absurd h.symm (by simp [entriesOf])
  | cons ms segments ih =>
    rw [entriesOf] at h
    -- the record is in the first segment, or behind it
    rcases List.append_eq_append_iff.1 h with ⟨pre', rfl, h'⟩ | ⟨post', hplaced, h'⟩
    · obtain ⟨k, before, after, hms, hpre, he⟩ := ih h'
      refine ⟨k + 1, before, after, hms, ?_, ?_⟩
      · rw [List.map_append, map_message_placed, hpre, List.take_succ_cons, List.flatten_cons,
          List.append_assoc]
      · rwa [Nat.add_assoc, Nat.add_comm 1] at he
    cases post' with
    | nil =>
      have hfirst : entriesOf (index + 1) segments = [] ++ e :: post := h'.symm
      obtain ⟨k, before, after, hms, hpre, he⟩ := ih hfirst
      refine ⟨k + 1, before, after, hms, ?_, ?_⟩
      · rw [List.append_nil] at hplaced
        rw [← hplaced, map_message_placed, List.take_succ_cons, List.flatten_cons,
          List.append_assoc, ← hpre, List.map_nil, List.append_nil]
      · rwa [Nat.add_assoc, Nat.add_comm 1] at he
    | cons e' post' =>
      obtain ⟨rfl, -⟩ := List.cons.inj h'
      obtain ⟨before, after, rfl, hpre, he⟩ := placed_split hplaced
      refine ⟨0, before, after, rfl, by rw [hpre]; rfl, ?_⟩
      rwa [Nat.zero_add] at he

/-! ## Damaged logs -/

/-- The disk with one byte of a file replaced. -/
def Disk.replaceByte (d : Disk) (f : FileId) (offset : Nat) (b : UInt8) : Disk :=
  d.setContent f ((d.content f).set offset b)

/-- A group takes no notice of a byte that is replaced. -/
theorem Group.OpenOn.replaceByte {g : Group} {s : Shelf} {id f : FileId} {d : Disk}
    (h : g.OpenOn s id d) (hf : f ∈ s.files) (offset : Nat) (b : UInt8) :
    g.OpenOn s id (d.replaceByte f offset b) := by
  refine ⟨h.on.setContent _ _, h.dir, h.head, h.shelf, h.min, h.max, ?_⟩
  rw [h.size, Disk.replaceByte, Disk.content_setContent (h.on.lt f hf)]
  split
  next heq => rw [heq, List.length_set]
  next => rfl

/-- The path of a segment depends on nothing but the directory and its place on the shelf. -/
theorem Group.OpenOn.segmentText {g : Group} {s : Shelf} {id : FileId} {d : Disk}
    (h : g.OpenOn s id d) (k : Nat) : g.segmentText (s.first + k) = joinPath g.config.dir
      (if s.tails.length ≤ k then LogConfig.headName else Segment.tailName (s.first + k)) := by
  simp only [Group.segmentText, h.max, Shelf.last, Nat.add_le_add_iff_left]

/-- A log whose bytes are messages, up to a place in one of its segments from which no record
    can be read: a new reader yields these messages, and fails at the place. -/
theorem Log.fails_at {log : Log} {s : Shelf} {id f : FileId} {segments : List (List Input)}
    {before : List Input} {bs : Bytes} {fault : RecordFault}
    (hregistry : log.registry = Workbench.registry) (h : log.group.OpenOn s id log.disk)
    (hsegments : ∀ (k : Nat) (ms : List Input), segments[k]? = some ms →
      ∃ f : FileId, s.files[k]? = some f ∧ log.disk.content f = frames ms)
    (hf : s.files[segments.length]? = some f) (hcontent : log.disk.content f = frames before ++ bs)
    (hfits : ∀ m ∈ segments.flatten ++ before,
      Record.Fits log.group.config.maxRecordSize m.envelope)
    (hread : (Record.read log.group.config.maxRecordSize bs).1 = .corrupt fault) :
    log.FailsAfter (segments.flatten ++ before)
      (.corrupt (log.group.segmentText (s.first + segments.length)) (frames before).length
        (.record fault)) := by
  obtain ⟨p, hp⟩ := h.resolve_segment hf
  rw [List.forall_mem_append] at hfits
  refine ⟨.atPosition log.group log.group.minIndex 0, ?_, ?_⟩
  · simp [Log.newReader, h.isClosed]
  rw [h.min]
  refine (Reader.at_atPosition log s.first 0).fails_behind hregistry ?_ (fun k ms hms => ?_)
    hfits.1 fun r₁ h₁ => ?_
  · have hlt := (List.getElem?_eq_some_iff.1 hf).1
    rw [h.files, List.length_append, List.length_singleton] at hlt
    rw [h.max, Shelf.last]
    omega
  · obtain ⟨f', hf', hcontent'⟩ := hsegments k ms hms
    obtain ⟨p', hp'⟩ := h.resolve_segment hf'
    exact ⟨f', Disk.fileAt_of_file hp', hcontent'⟩
  rw [← List.append_nil before]
  refine h₁.fails_after hregistry (Disk.fileAt_of_file hp) hcontent hfits.2 fun r₂ h₂ => ?_
  rw [Nat.zero_add] at h₂
  obtain ⟨r₃, hread', -⟩ := h₂.read_corrupt (Disk.fileAt_of_file hp)
    (by rw [hcontent, List.drop_left, hread])
  rw [List.append_nil]
  exact .done hread'

namespace Log.Holds

variable {log : Log} {s : Shelf} {id f : FileId} {c : Chapters} {j k : Nat}
  {before after : List Input} {m : Input} {b : UInt8}
variable (h : log.Shows s id c) (hms : c.segments[j]? = some (before ++ m :: after))
  (hf : s.files[j]? = some f)
include h hf

/-- The other files are as they were. -/
theorem content_replaceByte_of_ne {i offset : Nat} {f' : FileId} (hf' : s.files[i]? = some f')
    (hne : i ≠ j) : (log.disk.replaceByte f offset b).content f' = log.disk.content f' := by
  rw [Disk.replaceByte, Disk.content_setContent (h.opened.on.lt f (List.mem_of_getElem? hf))]
  refine if_neg ?_
  rintro rfl
  exact hne ((List.getElem?_inj (List.getElem?_eq_some_iff.1 hf').1 h.opened.on.nodup).1
    (hf'.trans hf.symm))

include hms

/-- A byte of a record is replaced in its file. -/
theorem content_replaceByte (hk : k < (Record.encode m.envelope).length) :
    (log.disk.replaceByte f ((frames before).length + k) b).content f =
      frames before ++ ((Record.encode m.envelope).set k b ++ frames after) := by
  obtain ⟨f', hf', hcontent⟩ := h.file_of_segment hms
  cases hf.symm.trans hf'
  rw [Disk.replaceByte, Disk.content_setContent (h.opened.on.lt f (List.mem_of_getElem? hf)),
    if_pos rfl, hcontent, Shelf.restAt_nil, List.append_nil, frames_append, frames_cons,
    List.set_append_right _ _ (Nat.le_add_right _ _), Nat.add_sub_cancel_left,
    List.set_append_left _ _ hk]

variable {max : Nat} (hfits : ∀ m ∈ c.all, Record.Fits max m.envelope)
  (hk : k < (Record.encode m.envelope).length) (hpart : k < 4 ∨ Record.headerLength ≤ k)
  (hb : (Record.encode m.envelope)[k]? ≠ some b)
include hfits hk hpart hb

/-- However the segments are numbered, a new reader fails at the record with that byte. -/
theorem fails_at_replaceByte : ∃ stored computed, stored ≠ computed ∧
    ∀ (log' : Log) (s' : Shelf), log'.registry = Workbench.registry →
      log'.disk = log.disk.replaceByte f ((frames before).length + k) b →
      log'.group.OpenOn s' id log'.disk → s'.files = s.files →
      log'.group.config.maxRecordSize = max →
        log'.FailsAfter ((c.segments.take j).flatten ++ before)
          (.corrupt (log'.group.segmentText (s'.first + j)) (frames before).length
            (.record (.checksum stored computed))) := by
  have hall : ∀ m' ∈ (c.segments.take j).flatten ++ (before ++ m :: after), m' ∈ c.all := by
    intro m' hm'
    rcases List.mem_append.1 hm' with hm' | hm'
    · obtain ⟨ms, hms', hm'⟩ := List.mem_flatten.1 hm'
      exact c.flatten_segments ▸ List.mem_flatten.2 ⟨ms, List.mem_of_mem_take hms', hm'⟩
    · exact Chapters.mem_all hms hm'
  have hm : m ∈ c.all := hall m (by simp)
  obtain ⟨stored, computed, hne, hread⟩ :=
    Record.read_set (hfits m hm) hk hpart hb (frames after)
  refine ⟨stored, computed, hne, fun log' s' hregistry hdisk hopened hfiles hmax => ?_⟩
  have hj : (c.segments.take j).length = j := by
    rw [List.length_take]
    exact Nat.min_eq_left (Nat.le_of_lt (List.getElem?_eq_some_iff.1 hms).1)
  -- the segments before that of the record are as they were
  have hsegments : ∀ (i : Nat) (ms : List Input), (c.segments.take j)[i]? = some ms →
      ∃ f : FileId, s'.files[i]? = some f ∧ log'.disk.content f = frames ms := by
    intro i ms hi
    obtain ⟨hij, hi⟩ : i < j ∧ c.segments[i]? = some ms := by
      rw [List.getElem?_take] at hi
      split at hi
      next hij => exact ⟨hij, hi⟩
      next => cases hi
    obtain ⟨f', hf', hcontent⟩ := h.file_of_segment hi
    refine ⟨f', hfiles ▸ hf', ?_⟩
    rw [hdisk, h.content_replaceByte_of_ne hf hf' (Nat.ne_of_lt hij), hcontent, Shelf.restAt_nil,
      List.append_nil]
  have hbefore : ∀ m' ∈ (c.segments.take j).flatten ++ before,
      Record.Fits log'.group.config.maxRecordSize m'.envelope := by
    intro m' hm'
    rw [hmax]
    refine hfits m' (hall m' ?_)
    rw [← List.append_assoc]
    exact List.mem_append_left _ hm'
  have hcontent := h.content_replaceByte (b := b) hms hf hk
  rw [← hdisk] at hcontent
  have hfails := Log.fails_at hregistry hopened hsegments (by rw [hj, hfiles, hf]) hcontent
    hbefore (by rw [hmax, hread])
  rwa [hj] at hfails

/-- The head is not repaired, whether that byte is in it or not. -/
theorem repaired_replaceByte :
    Record.repaired max ((log.disk.replaceByte f ((frames before).length + k) b).content id) =
      (log.disk.replaceByte f ((frames before).length + k) b).content id := by
  have hhead : s.files[s.tails.length]? = some id := by
    rw [h.opened.files, List.getElem?_concat_length]
  by_cases hj : s.tails.length = j
  · subst hj
    cases hf.symm.trans hhead
    have hall := List.forall_mem_append.1 fun m' hm' => hfits m' (Chapters.mem_all hms hm')
    obtain ⟨stored, computed, -, hread⟩ :=
      Record.read_set (hall.2 m List.mem_cons_self) hk hpart hb (frames after)
    rw [h.content_replaceByte hms hf hk]
    exact Record.repaired_of_corrupt (List.forall_mem_map.2 hall.1) (congrArg Prod.fst hread)
  · rw [h.content_replaceByte_of_ne hf hhead hj, h.fill.head_content h.opened.shelf,
      List.append_nil]
    exact repaired_frames fun m' hm' => h.short m' (List.mem_append_right _ hm')

end Log.Holds

/-- In a directory, a segment has the same path however the tails are numbered. -/
theorem Group.OpenOn.segmentText_renumber {g g' : Group} {s : Shelf} {id : FileId} {d d' : Disk}
    (h : g.OpenOn s id d) (h' : g'.OpenOn s.renumber id d') (hdir : g'.config.dir = g.config.dir)
    (k : Nat) : g'.segmentText (s.renumber.first + k) = g.segmentText (s.first + k) := by
  rw [h'.segmentText, h.segmentText, hdir]
  by_cases ht : s.tails = []
  · simp [Shelf.renumber, ht]
  · simp [Shelf.renumber, ht]

namespace Kept

variable {ok : LogConfig → Prop} {dir : String} {max : Nat} {w : Workbench} {s : Shelf}
  {c : Chapters} {rest : Bytes} {log : Log}
variable (h : Kept ok dir w s c rest) (hmax : Uniform ok max)
include h hmax

theorem fits : ∀ m ∈ c.all, Record.Fits max m.envelope := fun m hm =>
  ⟨(h.storable m hm).2 max hmax, (h.storable m hm).1⟩

/-- All that is in the chapters are records of the log that is open. -/
theorem entries (hlog : w.log? = some log) (hopen : log.group.isClosed = false) :
    log.entries = c.entries s.first := by
  obtain ⟨rfl, id, hshows⟩ := h.shows hlog hopen
  refine hshows.entries ⟨fun m hm => ?_, Record.torn_nil _⟩
  rw [hmax _ (h.config_of_log hlog).1]
  exact (h.fits hmax m hm).1

end Kept

namespace Workbench

/-- A log whose head needs no repair is opened without any change, and with the segments that
    are there. -/
theorem run_openLog_of_whole {w : Workbench} {g : Group} {s : Shelf} {id : FileId}
    {config : LogConfig} (h : g.OpenOn s id w.disk) (hdir : Group.dir config = s.dir)
    (hlast : s.last ≤ Saturating.ceiling) (hvalid : config.validate = .ok ())
    (hwhole : Record.repaired config.maxRecordSize (w.disk.content id) = w.disk.content id)
    (watched : Bool) : ∃ g',
      (w.run (.openLog config watched)).1.isDone = true ∧
      (w.run (.openLog config watched)).2.disk = w.disk ∧
      (w.run (.openLog config watched)).2.log? = some ⟨w.disk, g', registry⟩ ∧
      g'.OpenOn s.renumber id w.disk ∧ g'.config = config := by
  obtain ⟨g', hopen, hopened, hconfig⟩ := Group.openIn_of_head h.on hdir hlast h.shelf hwhole
  rw [Disk.setContent_content] at hopen hopened
  obtain ⟨hdisk, hgroup⟩ := run_openLog hvalid watched
  rw [hopen] at hdisk hgroup
  refine ⟨g', ?_, hdisk, ?_, hopened, hconfig⟩
  · rw [isDone_run_openLog, hgroup]
    rfl
  · rw [log?, hgroup, hdisk]
    rfl

/-- After any run in an empty directory, in which all limits for the length of an envelope are
    the same, let the log be open. A new reader yields the messages of all records. Let any byte
    of the checksum or of the envelope of any of them be replaced by another one. Then a new
    reader yields the messages of the records before it, and fails with the path of its segment,
    its offset there, and two checksums that differ. If the log is opened again, no file is
    changed, and a new reader does the same. -/
theorem detects_damage {ok : LogConfig → Prop} {dir : String} {max : Nat} {w : Workbench}
    (hok : ∀ config, ok config → config.dir = dir) (hmax : Uniform ok max)
    (hdir : w.disk.list (.ofText dir) = .ok []) (hgroup : w.group = none) {es : List Incident}
    (hes : ∀ e ∈ es, e.Uses ok) (hrotations : w.rotations dir es < 2 ^ 64) {log : Log}
    (hlog : (w.after dir es).log? = some log) (hopen : log.group.isClosed = false) :
    (∃ r, log.newReader = .ok r ∧ r.Yields log (log.entries.map Entry.message)) ∧
    ∀ (pre post : List Entry) (e : Entry), log.entries = pre ++ e :: post →
      ∃ f, log.disk.fileAt (log.group.segmentRoute e.index) = .ok f ∧
        ∀ k < e.length, k < 4 ∨ Record.headerLength ≤ k →
          ∀ b, (log.disk.content f)[e.offset + k]? ≠ some b →
            let d := log.disk.replaceByte f (e.offset + k) b
            ∃ stored computed, stored ≠ computed ∧
              let error := LogError.corrupt (log.group.segmentText e.index) e.offset
                (.record (.checksum stored computed))
              Log.FailsAfter { log with disk := d } (pre.map Entry.message) error ∧
              ∀ config watched, ok config → config.validate = .ok () →
                let reopened := { w.after dir es with disk := d }.run (.openLog config watched)
                reopened.1.isDone = true ∧ reopened.2.disk = d ∧
                  ∃ log', reopened.2.log? = some log' ∧
                    log'.FailsAfter (pre.map Entry.message) error := by
  obtain ⟨s, c, rest, hkept, hlast⟩ := Kept.of_use hok hdir hgroup es hes hrotations
  obtain ⟨rfl, id, hshows⟩ := hkept.shows hlog hopen
  have hconfig := (hkept.config_of_log hlog).1
  have hfits := hkept.fits hmax
  have hentries := hkept.entries hmax hlog hopen
  refine ⟨?_, fun pre post e hsplit => ?_⟩
  · obtain ⟨r, hr, -, hyields⟩ := hkept.replays hmax hlog hopen
    exact ⟨r, hr, by rwa [hentries, Chapters.map_message_entries]⟩
  -- the record is in one of the segments, behind those before it
  obtain ⟨j, before, after, hms, hpre, he⟩ := entriesOf_split (hentries.symm.trans hsplit)
  obtain ⟨f, hf, hcontent⟩ := hshows.file_of_segment hms
  obtain ⟨p, hp⟩ := hshows.opened.resolve_segment hf
  have hindex : e.index = s.first + j := congrArg Entry.index he
  have hoffset : e.offset = (frames before).length := congrArg Entry.offset he
  have hlength : e.length = (Record.encode e.message.envelope).length :=
    congrArg Entry.length he
  rw [hindex, hoffset, hlength]
  refine ⟨f, Disk.fileAt_of_file hp, fun k hk hpart b hb => ?_⟩
  have hbyte : (Record.encode e.message.envelope)[k]? ≠ some b := by
    rwa [hcontent, Shelf.restAt_nil, List.append_nil, frames_append, frames_cons,
      List.getElem?_append_right (Nat.le_add_right _ _), Nat.add_sub_cancel_left,
      List.getElem?_append_left hk] at hb
  obtain ⟨stored, computed, hne, hfails⟩ :=
    hshows.fails_at_replaceByte hms hf hfits hk hpart hbyte
  have hopened := hshows.opened.replaceByte (List.mem_of_getElem? hf)
    ((frames before).length + k) b
  refine ⟨stored, computed, hne, ?_, fun config watched hconfig' hvalid' => ?_⟩
  · rw [hpre]
    exact hfails _ s hshows.registry rfl hopened rfl (hmax _ hconfig)
  -- nothing is repaired, and the same segments are found
  have hwhole := hshows.repaired_replaceByte hms hf hfits hk hpart hbyte
  rw [← hmax _ hconfig'] at hwhole
  have hdir' : Group.dir config = s.dir := by rw [hkept.dir, Group.dir, hok _ hconfig']
  obtain ⟨g', hdone, hdisk, hlog', hopened', rfl⟩ := run_openLog_of_whole
    (w := { w.after dir es with
      disk := log.disk.replaceByte f ((frames before).length + k) b }) hopened hdir'
    (Nat.le_trans hlast (Nat.le_pred_of_lt hrotations)) hvalid' hwhole watched
  refine ⟨hdone, hdisk, _, hlog', ?_⟩
  rw [hpre, ← hshows.opened.segmentText_renumber hopened'
    ((hok _ hconfig').trans (hok _ hconfig).symm)]
  exact hfails ⟨_, g', registry⟩ s.renumber rfl rfl hopened' rfl (hmax _ hconfig')

theorem chapters_twoHeights : Chapters.empty.after "root" (empty "root") (twoHeights.map .act) =
    ⟨[[.endHeight ⟨5⟩]], [.endHeight ⟨6⟩]⟩ := by
  decide +kernel

/-- The height of the second marker is changed in its first byte. -/
theorem detects_damage_twoHeights : ∃ (log : Log) (e : Entry) (f : FileId) (b : UInt8)
    (stored computed : UInt32),
    ((empty "root").after "root" (twoHeights.map .act)).log? = some log ∧
      e.message = .endHeight ⟨6⟩ ∧ stored ≠ computed ∧
      let d := log.disk.replaceByte f (e.offset + 17) b
      Log.FailsAfter { log with disk := d } [.endHeight ⟨5⟩]
        (.corrupt (log.group.segmentText e.index) e.offset
          (.record (.checksum stored computed))) ∧
      ({ (empty "root").after "root" (twoHeights.map .act) with disk := d }.run
        (.openLog (.dev "root") false)).2.disk = d := by
  obtain ⟨log, hlog, hopen⟩ := log_twoHeights
  have hes : ∀ e ∈ twoHeights.map Incident.act, e.Uses (LogConfig.KeepsAll "root" (64 * 1024)) :=
    List.forall_mem_map.2 fun a ha => .inl (operates_twoHeights a ha)
  obtain ⟨s, rest, hkept, -⟩ := Kept.of_run (fun _ h => h.1) list_root rfl
    (twoHeights.map .act) (List.forall_mem_map.2 operates_twoHeights) rotations_twoHeights
  have hentries : log.entries = [.ofMessage s.first 0 (.endHeight ⟨5⟩)] ++
      [.ofMessage (s.first + 1) 0 (.endHeight ⟨6⟩)] := by
    rw [hkept.entries LogConfig.KeepsAll.uniform hlog hopen, chapters_twoHeights]
    rfl
  obtain ⟨-, hdetects⟩ := detects_damage (fun _ h => h.1) LogConfig.KeepsAll.uniform list_root
    rfl hes rotations_twoHeights hlog hopen
  obtain ⟨f, -, hbytes⟩ := hdetects _ _ _ hentries
  -- any byte will do that is not the one that is there
  obtain ⟨b, hb⟩ : ∃ b, (log.disk.content f)[17]? ≠ some b := by
    cases (log.disk.content f)[17]? with
    | none => exact ⟨0, by simp⟩
    | some b => exact ⟨b + 1, by simp⟩
  obtain ⟨stored, computed, hne, hfails, hreopens⟩ := hbytes 17
    (show 17 < (Record.encode (Input.endHeight ⟨6⟩).envelope).length by decide)
    (.inr (by decide)) b hb
  obtain ⟨-, hdisk, -⟩ := hreopens (.dev "root") false ⟨rfl, rfl, rfl⟩ rfl
  exact ⟨log, _, f, b, stored, computed, hlog, rfl, hne, hfails, hdisk⟩

end Workbench

end ConsensusCore
