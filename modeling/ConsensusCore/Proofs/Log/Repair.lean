import ConsensusCore.Proofs.Log.Group
import ConsensusCore.Proofs.Log.Record
import Mathlib.Data.List.Basic

/-!
# Repairing the head

A head may hold any bytes when its log is opened. Records are taken off its front as long
as there are any (`Record.scan_split`), and if the bytes then end inside of one, that
beginning is cut off: it is shorter than the longest record that readers accept, and all the
records before it stay (`Record.repaired_of_torn`). A head that ends in any other way is not
touched. So repairing is done once (`Record.repaired_repaired`).

* `Route.Valid.of_append`, `Disk.resolve_of_fileAt`: where there is a file, its directory is
  there and can be asked for;
* `Group.openIn_repairs`: what opening does to the head, whatever is in it.
-/

namespace ConsensusCore

/-- What reading comes to where the beginning of a record has been cut off. -/
def RecordRead.mended : RecordRead → RecordRead
  | .torn _ => .eof
  | r => r

namespace Record

variable {max n : Nat} {bs e rest : Bytes} {es : List Bytes} {ending : RecordRead}

/-! ## Reading any bytes -/

/-- A header and an envelope with its checksum and its length are the record of that. -/
theorem encode_of_header {header : Bytes} (hheader : header.length = headerLength)
    (hlen : LittleEndian.ofBytes (header.drop 4) = e.length)
    (hsum : Crc32.checksum e = UInt32.ofNat (LittleEndian.ofBytes (header.take 4))) :
    encode e = header ++ e := by
  have htake : (header.take 4).length = 4 := by
    rw [List.length_take, hheader, headerLength]
    rfl
  have hdrop : (header.drop 4).length = 4 := by
    rw [List.length_drop, hheader, headerLength]
  have hstored : (Crc32.checksum e).toNat = LittleEndian.ofBytes (header.take 4) := by
    have hlt : LittleEndian.ofBytes (header.take 4) < 2 ^ 32 :=
      Nat.lt_of_lt_of_eq (LittleEndian.ofBytes_lt (header.take 4)) (by rw [htake]; rfl)
    rw [hsum, UInt32.toNat_ofNat', Nat.mod_eq_of_lt hlt]
  have hfront := LittleEndian.toBytes_ofBytes (header.take 4)
  have hback := LittleEndian.toBytes_ofBytes (header.drop 4)
  rw [htake] at hfront
  rw [hdrop] at hback
  rw [encode, hstored, ← hlen, hfront, hback, List.take_append_drop]

/-- What reading any bytes comes to. -/
theorem read_cases (max : Nat) (bs : Bytes) :
    bs = [] ∧ read max bs = (.eof, []) ∨
    (0 < bs.length ∧ bs.length < headerLength + max ∧ (read max bs).1 = .torn bs.length) ∨
    (∃ e rest, bs = encode e ++ rest ∧ Fits max e ∧ read max bs = (.record e, rest)) ∨
    ∃ fault, (read max bs).1 = .corrupt fault := by
  simp only [read, readFrom]
  split
  next hempty =>
    have hnil : bs = [] := by simpa [headerLength] using hempty
    subst hnil
    exact .inl ⟨rfl, rfl⟩
  next hempty =>
  have hpos : 0 < bs.length := by
    rw [List.length_pos_iff]
    rintro rfl
    exact hempty rfl
  split
  next hshort =>
    rw [List.length_take] at hshort
    have hall : (bs.take headerLength).length = bs.length := by
      rw [List.length_take]
      omega
    exact .inr (.inl ⟨hpos, by omega, by rw [hall]⟩)
  next hshort =>
  have hheader : (bs.take headerLength).length = headerLength := by
    have := List.length_take_le headerLength bs
    omega
  split
  next => exact .inr (.inr (.inr ⟨_, rfl⟩))
  next hlen =>
  split
  next hcut =>
    rw [List.length_take, List.length_drop] at hcut
    rw [List.length_take] at hheader
    have hall : headerLength + ((bs.drop headerLength).take
        (LittleEndian.ofBytes ((bs.take headerLength).drop 4))).length = bs.length := by
      rw [List.length_take, List.length_drop]
      omega
    exact .inr (.inl ⟨hpos, by omega, by rw [hall]⟩)
  next hcut =>
  have hwhole := List.length_take_le
    (LittleEndian.ofBytes ((bs.take headerLength).drop 4)) (bs.drop headerLength)
  have hlength := Nat.le_antisymm (Nat.not_lt.1 hcut) hwhole
  split
  next hsum =>
    refine .inr (.inr (.inl ⟨_, _, ?_, ⟨by omega, ?_⟩, rfl⟩))
    · rw [encode_of_header hheader hlength hsum, List.append_assoc, List.take_append_drop,
        List.take_append_drop]
    · have hlt := LittleEndian.ofBytes_lt ((bs.take headerLength).drop 4)
      rw [List.length_drop, hheader] at hlt
      exact hlength ▸ hlt
  next => exact .inr (.inr (.inr ⟨_, rfl⟩))

/-! ## Scanning any bytes -/

/-- Any bytes are records, and something that does not begin with one. -/
theorem scan_split (max : Nat) (bs : Bytes) : ∃ rest, bs = encodeAll (scan max bs).1 ++ rest ∧
    (read max rest).1 = (scan max bs).2 ∧ (∀ e, (scan max bs).2 ≠ .record e) ∧
    ∀ e ∈ (scan max bs).1, Fits max e := by
  fun_induction scan max bs with
  | case1 bs e rest hread es ending hscan ih =>
    obtain ⟨last, hrest, hending, hno, hfits⟩ := ih
    rw [hscan] at hrest hending hno hfits
    obtain ⟨-, h⟩ | ⟨-, -, h⟩ | ⟨e', rest', hbs, hfit, h⟩ | ⟨fault, h⟩ := read_cases max bs <;>
      rw [hread] at h <;> cases h
    refine ⟨last, ?_, hending, hno, List.forall_mem_cons.2 ⟨hfit, hfits⟩⟩
    rw [hbs, hrest, encodeAll_cons, List.append_assoc]
  | case2 bs ending rest hno hread =>
    refine ⟨bs, rfl, by rw [hread], fun e he => hno e he, fun e he => absurd he List.not_mem_nil⟩

/-- The beginning of a record at the end is cut off, and nothing else. -/
theorem repaired_of_torn (h : (scan max bs).2 = .torn n) :
    repaired max bs = encodeAll (scan max bs).1 ∧
    ∃ rest, bs = repaired max bs ++ rest ∧ rest.length = n ∧ 0 < n ∧ n < headerLength + max := by
  obtain ⟨rest, hbs, hread, -⟩ := scan_split max bs
  have hrepaired : repaired max bs = encodeAll (scan max bs).1 := by
    rw [repaired]
    split
    next es n' hscan =>
      rw [hscan] at hbs ⊢
      rw [hbs, ← length_encodeAll, List.take_left]
    next hother => exact absurd (Prod.ext rfl h : scan max bs = (_, .torn n)) (hother _ n)
  refine ⟨hrepaired, rest, hrepaired ▸ hbs, ?_⟩
  rw [h] at hread
  obtain ⟨-, hcase⟩ | ⟨hpos, hlt, hcase⟩ | ⟨_, _, -, -, hcase⟩ | ⟨_, hcase⟩ := read_cases max rest
  all_goals rw [hcase] at hread; cases hread
  exact ⟨rfl, hpos, hlt⟩

theorem repaired_of_not_torn (h : ∀ n, (scan max bs).2 ≠ .torn n) : repaired max bs = bs := by
  rw [repaired]
  split
  next n hscan => exact absurd (congrArg Prod.snd hscan) (h n)
  next => rfl

theorem repaired_prefix (max : Nat) (bs : Bytes) : repaired max bs <+: bs := by
  rw [repaired]
  split
  next => exact List.take_prefix _ _
  next => exact List.prefix_refl _

/-- The records that are read are the same, and they end where the beginning of a record has
    been cut off, if one has. -/
theorem scan_repaired (max : Nat) (bs : Bytes) :
    scan max (repaired max bs) = ((scan max bs).1, (scan max bs).2.mended) := by
  obtain ⟨rest, -, -, -, hfits⟩ := scan_split max bs
  cases hending : (scan max bs).2 with
  | torn n =>
    rw [(repaired_of_torn hending).1, ← List.append_nil (encodeAll _), scan_encodeAll_torn hfits
      (torn_nil max), if_pos rfl]
    rfl
  | _ =>
    rw [repaired_of_not_torn (by simp [hending])]
    exact Prod.ext rfl hending

theorem repaired_repaired (max : Nat) (bs : Bytes) :
    repaired max (repaired max bs) = repaired max bs := by
  refine repaired_of_not_torn fun n h => ?_
  rw [scan_repaired] at h
  cases hending : (scan max bs).2 <;> rw [hending] at h <;> cases h

end Record

/-! ## Where a file is -/

/-- What is on the way can be asked for, too. -/
theorem Route.Valid.of_append {r : Route} {name : String} (h : Valid (r ++ [name])) : Valid r := by
  obtain ⟨hnul, hlen⟩ := h
  rw [List.any_append, Bool.or_eq_false_iff] at hnul
  refine ⟨hnul.1, Nat.le_trans ?_ hlen⟩
  cases hr : r with
  | nil => exact Nat.zero_le _
  | cons a r' =>
    rw [toText, toText, String.intercalate_append_of_ne_nil (List.cons_ne_nil _ _)
      (List.cons_ne_nil _ _), String.utf8ByteSize_append, String.utf8ByteSize_append, Nat.add_assoc]
    exact Nat.le_add_right _ _

/-- Where there is a file, its directory is there. -/
theorem Disk.resolve_of_fileAt {d : Disk} {r : Route} {name : String} {id : FileId}
    (h : d.fileAt (r ++ [name]) = .ok id) : ∃ p, d.resolve r = .ok (p, .directory) := by
  obtain ⟨q, hq⟩ := exists_of_fileAt h
  obtain ⟨hvalid, hfold⟩ := locate_eq_ok_iff.1 (resolve_eq_ok_iff.1 hq).1
  obtain ⟨p, hp, ⟨hnil, -⟩ | hdir⟩ := foldlM_step_append hfold
  · exact absurd hnil (List.cons_ne_nil _ _)
  · exact ⟨p, resolve_eq_ok_iff.2 ⟨locate_eq_ok_iff.2 ⟨hvalid.of_append, hp⟩, hdir⟩⟩

namespace Group

variable {config : LogConfig} {d : Disk} {id : FileId}

/-- The disk with the head repaired. -/
def mended (config : LogConfig) (d : Disk) (id : FileId) : Disk :=
  d.setContent id (Record.repaired config.maxRecordSize (d.content id))

/-- What a repaired head holds. -/
theorem content_mended (config : LogConfig) (d : Disk) (id : FileId) :
    (mended config d id).content id = Record.repaired config.maxRecordSize (d.content id) := by
  by_cases hid : id < d.contents.length
  · rw [mended, Disk.content_setContent hid, if_pos rfl]
  · -- without contents there is nothing to be repaired
    have hnone : d.content id = [] := by
      rw [Disk.content, List.getElem?_eq_none (Nat.not_lt.1 hid)]
      rfl
    have hempty : Record.repaired config.maxRecordSize (Record.encodeAll []) = [] :=
      Record.repaired_of_short (by simp)
    rw [mended, Disk.setContent_of_le (Nat.not_lt.1 hid), hnone]
    exact hempty.symm

theorem mended_mended (config : LogConfig) (d : Disk) (id : FileId) :
    mended config (mended config d id) id = mended config d id := by
  rw [mended, content_mended, Record.repaired_repaired, mended, Disk.setContent_setContent]

/-- The numbers with which a group goes on that finds some tails. -/
def numbers (indices : List Nat) : Nat × Nat :=
  let max := match indices.max? with
    | some last => Saturating.add last 1
    | none => 0
  (indices.min?.getD max, max)

/-- Opening a group where there is a head. -/
theorem openIn_of_fileAt (hhead : d.fileAt (headRoute config) = .ok id) :
    ∃ indices, tailIndices config d = .ok indices ∧ openIn config d =
      (.ok ⟨config, some id, ((mended config d id).content id).length, (numbers indices).1,
        (numbers indices).2⟩, mended config d id) := by
  obtain ⟨p, hdir⟩ := Disk.resolve_of_fileAt hhead
  obtain ⟨q, hfile⟩ := Disk.exists_of_fileAt hhead
  obtain ⟨hlocate, hfind⟩ := Disk.resolve_eq_ok_iff.1 hfile
  obtain ⟨indices, hindices⟩ : ∃ indices, tailIndices config d = .ok indices :=
    ⟨_, by rw [tailIndices, Disk.list_of_directory hdir]; rfl⟩
  have hexists : d.exists? (headRoute config) = true := by rw [Disk.exists?, hfile]
  have hrepair : repairHead config d = .ok (mended config d id) := by
    rw [repairHead, hhead]
    rfl
  have hopen : (mended config d id).openFile (headRoute config) = .ok (mended config d id, id) :=
    Disk.openFile_of_file (Disk.locate_mono (Disk.keepsDirs_setContent d id _) hlocate) hfind
  have hof : ofDir config d =
      .ok (⟨config, some id, ((mended config d id).content id).length, (numbers indices).1,
        (numbers indices).2⟩, mended config d id) := by
    rw [ofDir]
    simp only [hindices, hexists, hrepair, hopen, bind, Except.bind, if_true, numbers]
    rfl
  exact ⟨indices, hindices, by simp only [openIn, Disk.createDirs_of_directory hdir, hof]⟩

/-- Opening leaves of any head `b` a beginning `b'` with the same records, which ends where `b`
    ends in the beginning of a record, and otherwise is `b`. What is cut off is not empty, and
    shorter than the longest record. The group knows the length of `b'`, and opening it again
    changes nothing. -/
theorem openIn_repairs (hhead : d.fileAt (headRoute config) = .ok id) :
    ∃ g d', openIn config d = (.ok g, d') ∧ d' = d.setContent id (d'.content id) ∧
      d'.fileAt (headRoute config) = .ok id ∧
      let max := config.maxRecordSize
      let b := d.content id
      let b' := d'.content id
      b' <+: b ∧
      (Record.scan max b').1 = (Record.scan max b).1 ∧
      (∀ n, (Record.scan max b).2 = .torn n → (Record.scan max b').2 = .eof ∧
        b'.length + n = b.length ∧ 1 ≤ n ∧ n < Record.headerLength + max) ∧
      ((∀ n, (Record.scan max b).2 ≠ .torn n) → b' = b) ∧
      g.head = some id ∧ g.headSize = b'.length ∧ openIn config d' = (.ok g, d') := by
  obtain ⟨indices, hindices, hopen⟩ := openIn_of_fileAt hhead
  have hcontent := content_mended config d id
  have hagain : openIn config (mended config d id) = openIn config d := by
    have hhead' : (mended config d id).fileAt (headRoute config) = .ok id := hhead
    obtain ⟨indices', hindices', hopen'⟩ := openIn_of_fileAt hhead'
    obtain rfl : indices' = indices := Except.ok.inj (hindices'.symm.trans hindices)
    rw [hopen', hopen, mended_mended]
  refine ⟨_, _, hopen, by rw [hcontent]; rfl, hhead, ?_, ?_, fun n hn => ?_, fun hn => ?_, rfl, rfl,
    hagain.trans hopen⟩ <;> rw [hcontent]
  · exact Record.repaired_prefix _ _
  · rw [Record.scan_repaired]
  · obtain ⟨-, rest, hrest, rfl, hpos, hlt⟩ := Record.repaired_of_torn hn
    refine ⟨by rw [Record.scan_repaired, hn]; rfl, ?_, hpos, hlt⟩
    rw [← List.length_append, ← hrest]
  · exact Record.repaired_of_not_torn hn

/-- A head with a record, and the beginning of another one. -/
def tornHead : Disk :=
  ⟨[(["root"], .directory), (["root", "WAL"], .file 0)],
    [Record.encode [1, 2] ++ (Record.encode [3]).take 5]⟩

theorem openIn_repairs_tornHead :
    tornHead.fileAt (headRoute (.dev "root")) = .ok 0 ∧
    ∃ g d', openIn (.dev "root") tornHead = (.ok g, d') ∧ d'.content 0 <+: tornHead.content 0 ∧
      (d'.content 0).length = 10 ∧ g.headSize = 10 ∧ openIn (.dev "root") d' = (.ok g, d') := by
  have hhead : tornHead.fileAt (headRoute (.dev "root")) = .ok 0 := rfl
  have htorn : Record.Torn (64 * 1024) ((Record.encode [3]).take 5) :=
    ⟨[3], 5, ⟨by decide, by decide⟩, by decide, rfl⟩
  have hfits : ∀ e ∈ [[1, 2]], Record.Fits (64 * 1024) e := by simp [Record.Fits]
  have hscan : Record.scan (64 * 1024) (tornHead.content 0) = ([[1, 2]], .torn 5) :=
    Record.scan_encodeAll_torn hfits htorn
  obtain ⟨g, d', hopen, -, -, hprefix, -, hcut, -, -, hsize, hagain⟩ := openIn_repairs hhead
  obtain ⟨-, hlength, -⟩ := hcut 5 (congrArg Prod.snd hscan)
  have hten : (d'.content 0).length = 10 := Nat.add_right_cancel hlength
  exact ⟨hhead, g, d', hopen, hprefix, hten, hsize.trans hten, hagain⟩

end Group

end ConsensusCore
