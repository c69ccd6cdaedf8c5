import ConsensusCore.Proofs.Log.Search
import ConsensusCore.Proofs.Log.Stepping

/-!
# Searching a damaged log

The bytes of the segments may be any. The search goes through all of them as long as it
finds nothing, and fails at a record that cannot be trusted or whose envelope does not
decode, as a reader does. A segment that ends inside a record is where they part: the search
takes this for the end of any segment, and a reader only for that of the head.

So the search reports a marker as missing that a reader would not get to, if a sealed segment
ends inside a record (`Log.search_none_iff_replay`).
-/

namespace ConsensusCore

open Log

variable {accept : UInt64 → Bool} {log : Log}

/-! ## Scanning -/

theorem Record.scan_eq_cons {max : Nat} {bs e : Bytes} {es : List Bytes} {ending : RecordRead}
    (h : scan max bs = (e :: es, ending)) : (read max bs).1 = .record e ∧
      scan max (bs.drop (headerLength + e.length)) = (es, ending) := by
  obtain ⟨n, -, hrest, htakes⟩ := read_takes max bs
  rw [scan] at h
  split at h
  · next e' rest hread =>
    rw [hread] at hrest htakes
    cases h
    obtain rfl : n = headerLength + e.length := htakes
    obtain rfl : rest = _ := hrest
    exact ⟨by rw [hread], rfl⟩
  · cases h

theorem Record.scan_eq_nil {max : Nat} {bs : Bytes} {ending : RecordRead}
    (h : scan max bs = ([], ending)) : (read max bs).1 = ending ∧ ∀ e, ending ≠ .record e := by
  rw [scan] at h
  split at h
  · cases h
  · next ending' rest hne hread =>
    cases h
    exact ⟨by rw [hread], fun e he => hne e (by rw [he])⟩

/-- What reading on after the complete records in a segment comes to. -/
def Log.endingIn (log : Log) (index : Nat) : RecordRead :=
  match log.disk.fileAt (log.group.segmentRoute index) with
  | .ok id => (Record.scan log.group.config.maxRecordSize (log.disk.content id)).2
  | .error _ => .eof

/-- The log is open, and each of its segments has a file, whatever is in it. -/
structure Log.Contiguous (log : Log) : Prop where
  isOpen : log.group.isClosed = false
  le : log.group.minIndex ≤ log.group.maxIndex
  file : ∀ i, log.group.minIndex ≤ i → i ≤ log.group.maxIndex →
    ∃ f, log.disk.fileAt (log.group.segmentRoute i) = .ok f

/-! ## Finding nothing -/

/-- All of the envelopes decode to messages that are rejected. -/
def AllRejected (log : Log) (accept : UInt64 → Bool) (es : List Bytes) : Prop :=
  ∀ e ∈ es, ∃ m, log.registry.decode e = .ok m ∧ Rejects accept m

theorem lastMarker_eq_none_iff {path : String} {offset : Nat} {found : Option (UInt64 × Nat)}
    {es : List Bytes} : lastMarker log.registry accept path offset found es = .ok none ↔
      found = none ∧ AllRejected log accept es := by
  induction es generalizing offset found with
  | nil => simp [lastMarker, AllRejected]
  | cons e es ih =>
    rw [lastMarker, AllRejected, List.forall_mem_cons]
    cases hdecode : log.registry.decode e with
    | error err => simp
    | ok m =>
      simp only [ih, Except.ok.injEq, exists_eq_left', Rejects, AllRejected]
      cases hm : m.endHeight? with
      | none => simp
      | some h =>
        cases hh : accept h with
        | true => simp [hh]
        | false => simp [hh]

theorem markerIn_eq_none_iff {i : Nat}
    (hfile : ∃ f, log.disk.fileAt (log.group.segmentRoute i) = .ok f) :
    log.markerIn accept i = .ok none ↔
      AllRejected log accept (log.envelopesIn i) ∧ ∀ fault, log.endingIn i ≠ .corrupt fault := by
  obtain ⟨f, hfile⟩ := hfile
  simp only [markerIn, Log.envelopesIn, Log.endingIn, hfile]
  obtain ⟨es, ending⟩ := Record.scan log.group.config.maxRecordSize (log.disk.content f)
  have hnone : lastMarker log.registry accept (log.group.segmentText i) 0 none es = .ok none ↔
      AllRejected log accept es := by
    rw [lastMarker_eq_none_iff]
    exact and_iff_right rfl
  rw [← hnone]
  cases lastMarker log.registry accept (log.group.segmentText i) 0 none es with
  | error e => simp
  | ok found => cases ending <;> simp

theorem searchFrom_eq_none_iff {count : Nat} : log.searchFrom accept count = .ok none ↔
    ∀ k ≤ count, log.markerIn accept (log.group.minIndex + k) = .ok none := by
  induction count with
  | zero => simp [searchFrom]
  | succ n ih =>
    rw [searchFrom]
    constructor
    · intro h k hk
      split at h
      · next hmarker =>
        rcases Nat.eq_or_lt_of_le hk with rfl | hlt
        · exact hmarker
        · exact ih.1 h k (Nat.le_of_lt_succ hlt)
      · next hne => exact absurd h hne
    · intro h
      rw [h (n + 1) (Nat.le_refl _)]
      exact ih.2 fun k hk => h k (Nat.le_succ_of_le hk)

/-- The search finds nothing if the segments have nothing but messages that are rejected, and
    nothing that cannot be trusted after them. -/
theorem Log.Contiguous.search_eq_none_iff (h : log.Contiguous) :
    log.search accept = .ok none ↔
      ∀ i, log.group.minIndex ≤ i → i ≤ log.group.maxIndex →
        AllRejected log accept (log.envelopesIn i) ∧
          ∀ fault, log.endingIn i ≠ .corrupt fault := by
  have hle := h.le
  have hfrom : log.search accept = .ok none ↔
      log.searchFrom accept (log.group.maxIndex - log.group.minIndex) = .ok none := by
    rw [search, h.isOpen]
    rcases log.searchFrom accept (log.group.maxIndex - log.group.minIndex) with e | _ | found <;>
      simp [Except.map]
  rw [hfrom, searchFrom_eq_none_iff]
  constructor
  · intro hall i hmin hmax
    obtain ⟨k, rfl⟩ := Nat.exists_eq_add_of_le hmin
    exact (markerIn_eq_none_iff (h.file _ hmin hmax)).1 (hall k (by omega))
  · intro hall k hk
    have hmax : log.group.minIndex + k ≤ log.group.maxIndex := by omega
    exact (markerIn_eq_none_iff (h.file _ (by omega) hmax)).2 (hall _ (by omega) hmax)

/-! ## Reading on to the end -/

namespace Reader

variable {r r' : Reader} {max i o : Nat} {m : Input}

/-- The reader comes to the end, and returns nothing but messages that are rejected. -/
def Quiet (log : Log) (accept : UInt64 → Bool) (r : Reader) : Prop :=
  ∃ L, Yields log r L ∧ ∀ m ∈ L, Rejects accept m

theorem quiet_congr (h : log.read r = log.read r') :
    Quiet log accept r ↔ Quiet log accept r' := by
  have hyields : ∀ {r r' : Reader} {L : List Input}, log.read r = log.read r' →
      Yields log r' L → Yields log r L := by
    rintro r r' L h (hread | ⟨hread, hrest⟩)
    · exact .done (h.trans hread)
    · exact .more (h.trans hread) hrest
  constructor
  · rintro ⟨L, hL, hall⟩
    exact ⟨L, hyields h.symm hL, hall⟩
  · rintro ⟨L, hL, hall⟩
    exact ⟨L, hyields h hL, hall⟩

theorem not_quiet {e : LogError} (h : log.read r = (.error e, r')) : ¬Quiet log accept r := by
  rintro ⟨_, hread | ⟨hread, -⟩, -⟩
  · rw [h] at hread
    cases hread
  · rw [h] at hread
    cases hread

theorem quiet_of_end (h : log.read r = (.ok none, r')) : Quiet log accept r :=
  ⟨[], .done h, by simp⟩

theorem quiet_iff_of_message (h : log.read r = (.ok (some m), r')) :
    Quiet log accept r ↔ Rejects accept m ∧ Quiet log accept r' := by
  constructor
  · rintro ⟨_, hread | ⟨hread, hrest⟩, hall⟩
    · rw [h] at hread
      cases hread
    · rw [h] at hread
      cases hread
      obtain ⟨hm, hall⟩ := List.forall_mem_cons.1 hall
      exact ⟨hm, _, hrest, hall⟩
  · rintro ⟨hm, L, hL, hall⟩
    exact ⟨m :: L, .more h hL, List.forall_mem_cons.2 ⟨hm, hall⟩⟩

/-- A reader in step comes to the end of its segment if there are only messages, and goes on
    if the segment is sealed and ends with one. -/
theorem At.quiet_iff {f : FileId} {es : List Bytes} {ending : RecordRead} {next : Prop}
    (h : r.At log max i o) (hfile : log.disk.fileAt (log.group.segmentRoute i) = .ok f)
    (hscan : Record.scan max ((log.disk.content f).drop o) = (es, ending))
    (hnext : i < log.group.maxIndex →
      ∀ r', r'.At log max (i + 1) 0 → (Quiet log accept r' ↔ next)) :
    Quiet log accept r ↔ AllRejected log accept es ∧ (∀ fault, ending ≠ .corrupt fault) ∧
      (i < log.group.maxIndex → (∀ n, ending ≠ .torn n) ∧ next) := by
  induction es generalizing r o with
  | nil =>
    obtain ⟨hout, hne⟩ := Record.scan_eq_nil hscan
    have hnil : AllRejected log accept [] := by simp [AllRejected]
    by_cases hsealed : i < log.group.maxIndex
    · cases ending with
      | record e => exact absurd rfl (hne e)
      | eof =>
        obtain ⟨r', hread, hat⟩ := h.read_next hfile hsealed hout
        rw [quiet_congr hread, hnext hsealed r' hat]
        simp [hnil, hsealed]
      | torn n =>
        obtain ⟨r', hread, -⟩ := h.read_torn hfile hsealed hout
        simp [not_quiet hread, hsealed]
      | corrupt fault =>
        obtain ⟨r', hread, -⟩ := h.read_corrupt hfile hout
        simp [not_quiet hread]
    · have hhead := Nat.not_lt.1 hsealed
      cases ending with
      | record e => exact absurd rfl (hne e)
      | eof =>
        obtain ⟨r', hread, -⟩ := h.read_wait hfile hhead (.inl hout)
        simp [quiet_of_end hread, hnil, hsealed]
      | torn n =>
        obtain ⟨r', hread, -⟩ := h.read_wait hfile hhead (.inr ⟨n, hout⟩)
        simp [quiet_of_end hread, hnil, hsealed]
      | corrupt fault =>
        obtain ⟨r', hread, -⟩ := h.read_corrupt hfile hout
        simp [not_quiet hread]
  | cons e es ih =>
    obtain ⟨hout, hrest⟩ := Record.scan_eq_cons hscan
    rw [List.drop_drop] at hrest
    rw [AllRejected, List.forall_mem_cons]
    cases hdecode : log.registry.decode e with
    | error err =>
      obtain ⟨r', hread, -⟩ := h.read_undecodable hfile hout hdecode
      simp [not_quiet hread]
    | ok m =>
      obtain ⟨r', hread, hat⟩ := h.read_message hfile hout hdecode
      rw [quiet_iff_of_message hread, ih hat hrest, AllRejected]
      simp only [Except.ok.injEq, exists_eq_left', and_assoc]

/-- A reader at the beginning of a segment comes to the end if this one and all newer ones
    have nothing but messages, except that the head may end inside a record. -/
theorem At.quiet_iff_of_contiguous {r : Reader} {i : Nat} (hlog : log.Contiguous)
    (h : r.At log log.group.config.maxRecordSize i 0) (hmin : log.group.minIndex ≤ i)
    (hmax : i ≤ log.group.maxIndex) : Quiet log accept r ↔
      ∀ j, i ≤ j → j ≤ log.group.maxIndex → AllRejected log accept (log.envelopesIn j) ∧
        (∀ fault, log.endingIn j ≠ .corrupt fault) ∧
          (j < log.group.maxIndex → ∀ n, log.endingIn j ≠ .torn n) := by
  obtain ⟨f, hfile⟩ := hlog.file i hmin hmax
  have hscan : Record.scan log.group.config.maxRecordSize ((log.disk.content f).drop 0) =
      (log.envelopesIn i, log.endingIn i) := by
    simp only [Log.envelopesIn, Log.endingIn, hfile, List.drop_zero]
  rw [h.quiet_iff hfile hscan fun hlt r' h' =>
    h'.quiet_iff_of_contiguous hlog (Nat.le_succ_of_le hmin) hlt]
  constructor
  · rintro ⟨hrejected, htrusted, hnext⟩ j hij hj
    rcases Nat.eq_or_lt_of_le hij with rfl | hlt
    · exact ⟨hrejected, htrusted, fun hsealed => (hnext hsealed).1⟩
    · exact (hnext (Nat.lt_of_lt_of_le hlt hj)).2 j hlt hj
  · intro hall
    obtain ⟨hrejected, htrusted, hwhole⟩ := hall i (Nat.le_refl i) hmax
    exact ⟨hrejected, htrusted, fun hsealed =>
      ⟨hwhole hsealed, fun j hij => hall j (Nat.le_of_succ_le hij)⟩⟩
termination_by log.group.maxIndex - i

end Reader

/-! ## Both -/

namespace Log

/-- A search for the marker that closes a height finds nothing, and no sealed segment ends
    inside a record, if and only if a new reader comes to the end of the log and has not
    returned the marker. -/
theorem search_none_iff_replay (hlog : log.Contiguous) (h : UInt64) :
    (log.searchEndHeight h = .ok none ∧
        ∀ i n, log.group.minIndex ≤ i → i < log.group.maxIndex → log.endingIn i ≠ .torn n) ↔
      ∃ r L, log.newReader = .ok r ∧ Reader.Yields log r L ∧ ∀ m ∈ L, m.endHeight? ≠ some h := by
  have hsearch : log.searchEndHeight h = .ok none ↔ log.search (· == h) = .ok none := by
    rw [searchEndHeight]
    rcases log.search (· == h) with e | _ | found <;> simp [Except.map]
  have hreader : (∃ r L, log.newReader = .ok r ∧ Reader.Yields log r L ∧
      ∀ m ∈ L, m.endHeight? ≠ some h) ↔
        Reader.Quiet log (· == h) (.atPosition log.group log.group.minIndex 0) := by
    simp only [newReader, hlog.isOpen, Bool.false_eq_true, if_false, Except.ok.injEq,
      Reader.Quiet, rejects_eq]
    constructor
    · rintro ⟨r, L, rfl, hL⟩
      exact ⟨L, hL⟩
    · rintro ⟨L, hL⟩
      exact ⟨_, L, rfl, hL⟩
  rw [hsearch, hlog.search_eq_none_iff, hreader,
    (Reader.at_atPosition log _ 0).quiet_iff_of_contiguous hlog (Nat.le_refl _) hlog.le]
  constructor
  · rintro ⟨hall, hwhole⟩ i hmin hmax
    obtain ⟨hrejected, htrusted⟩ := hall i hmin hmax
    exact ⟨hrejected, htrusted, fun hlt n => hwhole i n hmin hlt⟩
  · intro hall
    refine ⟨fun i hmin hmax => ?_, fun i n hmin hlt => ?_⟩
    · obtain ⟨hrejected, htrusted, -⟩ := hall i hmin hmax
      exact ⟨hrejected, htrusted⟩
    · exact (hall i hmin (Nat.le_of_lt hlt)).2.2 hlt n

theorem Holds.contiguous {s : Shelf} {id : FileId} {c : Chapters} {rest : Bytes}
    (h : log.Holds s id c rest) : log.Contiguous := by
  refine ⟨h.opened.isClosed, ?_, fun i hmin hmax => ?_⟩
  · rw [h.opened.min, h.opened.max, Shelf.last]
    exact Nat.le_add_right _ _
  · rw [h.opened.min] at hmin
    rw [h.opened.max, Shelf.last] at hmax
    obtain ⟨k, rfl⟩ := Nat.exists_eq_add_of_le hmin
    have hk : k < c.segments.length := by
      rw [h.length_segments]
      omega
    obtain ⟨f, hf, -⟩ := h.file_of_segment (List.getElem?_eq_getElem hk)
    obtain ⟨p, hp⟩ := h.opened.resolve_segment hf
    exact ⟨f, Disk.fileAt_of_file hp⟩

end Log

theorem search_none_twoHeights : ∃ log,
    ((Workbench.empty "root").after "root" (twoHeights.map .act)).log? = some log ∧
      log.Contiguous ∧ log.searchEndHeight 7 = .ok none := by
  obtain ⟨log, hlog, hopen⟩ := log_twoHeights
  obtain ⟨s, rest, hkept, -⟩ := Kept.of_run (fun _ h => h.1) list_root rfl
    (twoHeights.map .act) (List.forall_mem_map.2 operates_twoHeights) rotations_twoHeights
  obtain ⟨-, id, hshows⟩ := hkept.shows hlog hopen
  obtain ⟨r, hr, -, hyields⟩ := Workbench.replays list_root rfl operates_twoHeights
    rotations_twoHeights hlog hopen
  rw [written_twoHeights] at hyields
  have hnone := (Log.search_none_iff_replay hshows.contiguous 7).2
    ⟨r, _, hr, hyields, by simp [Input.endHeight?]⟩
  exact ⟨log, hlog, hshows.contiguous, hnone.1⟩

/-- A log with a marker in its tail, which was cut inside the record of that. -/
def cutLog : Log where
  disk := ⟨[(["root"], .directory), (["root", "WAL"], .file 0), (["root", "WAL.000"], .file 1)],
    [[], (Record.encode (Input.endHeight ⟨5⟩).envelope).take 10]⟩
  group := ⟨.dev "root", some 0, 0, 0, 1⟩
  registry := Workbench.registry

theorem cutLog_tail : cutLog.disk.fileAt (cutLog.group.segmentRoute 0) = .ok 1 := by decide +kernel

theorem cutLog_head : cutLog.disk.fileAt (cutLog.group.segmentRoute 1) = .ok 0 := by decide +kernel

theorem cutLog_torn : Record.read (64 * 1024) (cutLog.disk.content 1) = (.torn 10, []) :=
  Record.read_take_encode ⟨by decide, by decide⟩ (by decide)

/-- The marker is reported as missing, although a reader fails before it gets to the end. -/
theorem search_misses_cutLog : cutLog.Contiguous ∧ cutLog.searchEndHeight 5 = .ok none ∧
    ¬∃ r L, cutLog.newReader = .ok r ∧ Reader.Yields cutLog r L ∧
      ∀ m ∈ L, m.endHeight? ≠ some 5 := by
  have hcontiguous : cutLog.Contiguous := by
    refine ⟨rfl, by decide, fun i _ hmax => ?_⟩
    rcases Nat.le_one_iff_eq_zero_or_eq_one.1 hmax with rfl | rfl
    · exact ⟨1, cutLog_tail⟩
    · exact ⟨0, cutLog_head⟩
  refine ⟨hcontiguous, ?_, ?_⟩
  · have hnone : cutLog.search (· == 5) = .ok none := by
      refine hcontiguous.search_eq_none_iff.2 fun i _ hmax => ?_
      rcases Nat.le_one_iff_eq_zero_or_eq_one.1 hmax with rfl | rfl
      · have hscan : Record.scan cutLog.group.config.maxRecordSize (cutLog.disk.content 1) =
            ([], .torn 10) := Record.scan_of_ending cutLog_torn (by simp)
        simp [AllRejected, Log.envelopesIn, Log.endingIn, cutLog_tail, hscan]
      · have hscan : Record.scan cutLog.group.config.maxRecordSize (cutLog.disk.content 0) =
            ([], .eof) := Record.scan_of_ending Record.read_nil (by simp)
        simp [AllRejected, Log.envelopesIn, Log.endingIn, cutLog_head, hscan]
    rw [Log.searchEndHeight, hnone]
    rfl
  · rintro ⟨r, L, hr, hL, hall⟩
    cases hr
    obtain ⟨r', hread, -⟩ := (Reader.at_atPosition cutLog 0 0).read_torn cutLog_tail (by decide)
      (congrArg Prod.fst cutLog_torn)
    exact Reader.not_quiet hread ⟨L, hL, fun m hm => rejects_eq.2 (hall m hm)⟩

end ConsensusCore
