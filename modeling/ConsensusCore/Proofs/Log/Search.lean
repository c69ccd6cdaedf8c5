import ConsensusCore.Proofs.Log.Following
import ConsensusCore.Proofs.Log.Replay

/-!
# Searching for markers

The search goes through the segments from the newest to the oldest, and through each of them
from its beginning to its end. What it finds is all the same the last marker that is accepted
among the messages in the log (`search_of_last`), and it finds none only if there is none
(`search_of_rejected`): the segments do not matter. The reader it gives has the messages
behind the marker ahead.
-/

namespace ConsensusCore

open Log

/-- The message is no marker that is accepted. -/
def Rejects (accept : UInt64 → Bool) (m : Input) : Prop :=
  ∀ h, m.endHeight? = some h → accept h = false

variable {accept : UInt64 → Bool} {path : String} {offset : Nat} {h : UInt64}
  {found : Option (UInt64 × Nat)} {before after ms : List Input} {m : Input}

/-! ## In a segment -/

theorem lastMarker_cons (m : Input) (ms : List Input) :
    lastMarker Workbench.registry accept path offset found ((m :: ms).map Input.envelope) =
      lastMarker Workbench.registry accept path (offset + (frames [m]).length)
        (match m.endHeight? with
          | some h => if accept h then some (h, offset + (frames [m]).length) else found
          | none => found) (ms.map Input.envelope) := by
  have hdecode : Workbench.registry.decode m.envelope = .ok m := Registry.decode_inputs m
  cases hm : m.endHeight? <;>
    simp only [List.map_cons, lastMarker, hdecode, hm, frames_singleton, Record.length_encode]

theorem lastMarker_of_rejected (hms : ∀ m ∈ ms, Rejects accept m) :
    lastMarker Workbench.registry accept path offset found (ms.map Input.envelope) = .ok found := by
  induction ms generalizing offset with
  | nil => rfl
  | cons m ms ih =>
    have hstep : (match m.endHeight? with
        | some h => if accept h then some (h, offset + (frames [m]).length) else found
        | none => found) = found := by
      cases hm : m.endHeight? with
      | none => rfl
      | some h => simp [hms m List.mem_cons_self h hm]
    rw [lastMarker_cons, hstep]
    exact ih fun m' hm' => hms m' (List.mem_cons_of_mem _ hm')

/-- The last marker that is accepted is found, with the offset behind it. -/
theorem lastMarker_of_last (hh : accept h = true) (hafter : ∀ m ∈ after, Rejects accept m) :
    lastMarker Workbench.registry accept path offset found
        ((before ++ .endHeight ⟨h⟩ :: after).map Input.envelope) =
      .ok (some (h, offset + (frames (before ++ [.endHeight ⟨h⟩])).length)) := by
  induction before generalizing offset found with
  | nil =>
    have hmarker : (Input.endHeight ⟨h⟩).endHeight? = some h := rfl
    rw [List.nil_append, lastMarker_cons, hmarker]
    simp only [hh, if_true, List.nil_append]
    exact lastMarker_of_rejected hafter
  | cons m before ih =>
    rw [List.cons_append, lastMarker_cons, ih, Nat.add_assoc, ← List.length_append,
      ← frames_append]
    rfl

variable {log : Log} {s : Shelf} {id : FileId} {c : Chapters} {k count : Nat}

/-- All envelopes in the log are of a length that its readers accept. -/
def Readable (log : Log) (c : Chapters) : Prop :=
  ∀ m ∈ c.all, m.envelope.length ≤ log.group.config.maxRecordSize

/-- What is found in a segment is what is found in its chapter. -/
theorem markerIn_eq (accept : UInt64 → Bool) (hlog : log.Shows s id c) (hread : Readable log c)
    (hms : c.segments[k]? = some ms) :
    log.markerIn accept (log.group.minIndex + k) =
      (lastMarker Workbench.registry accept (log.group.segmentText (log.group.minIndex + k)) 0 none
        (ms.map Input.envelope)).map
          fun found => found.map fun (h, offset) => (h, log.group.minIndex + k, offset) := by
  obtain ⟨f, hf, hcontent⟩ := hlog.file_of_segment hms
  obtain ⟨p, hp⟩ := hlog.opened.resolve_segment hf
  rw [← hlog.opened.min] at hp
  have hfits : ∀ e ∈ ms.map Input.envelope, Record.Fits log.group.config.maxRecordSize e := by
    refine List.forall_mem_map.2 fun m hm => ?_
    have hall := Chapters.mem_all hms hm
    exact ⟨hread m hall, hlog.short m hall⟩
  have hscan : Record.scan log.group.config.maxRecordSize (log.disk.content f) =
      (ms.map Input.envelope, .eof) := by
    rw [hcontent, Shelf.restAt_nil, frames]
    exact Record.scan_encodeAll_torn hfits (Record.torn_nil _)
  simp only [markerIn, Disk.fileAt_of_file hp, hscan, hlog.registry]
  cases lastMarker Workbench.registry accept _ 0 none (ms.map Input.envelope) <;> rfl

/-! ## In all segments -/

theorem searchFrom_of_rejected (hlog : log.Shows s id c) (hread : Readable log c)
    (hcount : count < c.segments.length)
    (hall : ∀ j ms, j ≤ count → c.segments[j]? = some ms → ∀ m ∈ ms, Rejects accept m) :
    log.searchFrom accept count = .ok none := by
  induction count with
  | zero =>
    have hget := List.getElem?_eq_getElem hcount
    have hmarker := markerIn_eq accept hlog hread hget
    rw [lastMarker_of_rejected (hall 0 _ (Nat.le_refl 0) hget)] at hmarker
    exact hmarker
  | succ n ih =>
    have hget := List.getElem?_eq_getElem hcount
    have hmarker := markerIn_eq accept hlog hread hget
    rw [lastMarker_of_rejected (hall (n + 1) _ (Nat.le_refl _) hget)] at hmarker
    rw [searchFrom, hmarker]
    exact ih (Nat.lt_of_succ_lt hcount) fun j ms hj => hall j ms (Nat.le_succ_of_le hj)

/-- The search stops at the newest segment that has a marker which is accepted. -/
theorem searchFrom_of_last (hlog : log.Shows s id c) (hread : Readable log c)
    (hcount : count < c.segments.length) (hk : k ≤ count) (hh : accept h = true)
    (hms : c.segments[k]? = some (before ++ .endHeight ⟨h⟩ :: after))
    (hafter : ∀ m ∈ after, Rejects accept m)
    (hnewer : ∀ j ms, k < j → c.segments[j]? = some ms → ∀ m ∈ ms, Rejects accept m) :
    log.searchFrom accept count =
      .ok (some (h, log.group.minIndex + k, (frames (before ++ [.endHeight ⟨h⟩])).length)) := by
  have hfound := markerIn_eq accept hlog hread hms
  rw [lastMarker_of_last hh hafter, Nat.zero_add] at hfound
  induction count with
  | zero =>
    obtain rfl := Nat.le_zero.1 hk
    exact hfound
  | succ n ih =>
    rcases Nat.eq_or_lt_of_le hk with rfl | hlt
    · rw [searchFrom, hfound]
      rfl
    · -- nothing is found in a newer segment, so the search goes on
      have hget := List.getElem?_eq_getElem hcount
      have hmarker := markerIn_eq accept hlog hread hget
      rw [lastMarker_of_rejected (hnewer (n + 1) _ hlt hget)] at hmarker
      rw [searchFrom, hmarker]
      exact ih (Nat.lt_of_succ_lt hcount) (Nat.le_of_lt_succ hlt)

/-! ## In a log -/

/-- A message in one of some lists, and what comes after it. -/
theorem flatten_eq_append_cons {L : List (List Input)} (hL : L.flatten = before ++ m :: after) :
    ∃ k b a, L[k]? = some (b ++ m :: a) ∧ after = a ++ (L.drop (k + 1)).flatten := by
  induction L generalizing before with
  | nil => simp at hL
  | cons ms L ih =>
    rw [List.flatten_cons, List.append_eq_append_iff] at hL
    -- the first list ends before the message, or has it
    rcases hL with ⟨before', rfl, hrest⟩ | ⟨a, rfl, hrest⟩
    · obtain ⟨k, b, a, hget, hafter⟩ := ih hrest
      exact ⟨k + 1, b, a, hget, hafter⟩
    · cases a with
      | nil =>
        have hrest' : L.flatten = [] ++ m :: after := hrest.symm
        obtain ⟨k, b, a, hget, hafter⟩ := ih hrest'
        exact ⟨k + 1, b, a, hget, hafter⟩
      | cons m' a =>
        obtain ⟨rfl, rfl⟩ := List.cons.inj hrest
        exact ⟨0, before, a, rfl, rfl⟩

theorem exists_last (accept : UInt64 → Bool) (L : List Input) :
    (∀ m ∈ L, Rejects accept m) ∨ ∃ before h after, L = before ++ .endHeight ⟨h⟩ :: after ∧
      accept h = true ∧ ∀ m ∈ after, Rejects accept m := by
  induction L with
  | nil => exact .inl (by simp)
  | cons m L ih =>
    rcases ih with hL | ⟨before, h, after, rfl, hh, hafter⟩
    · by_cases hm : Rejects accept m
      · exact .inl (List.forall_mem_cons.2 ⟨hm, hL⟩)
      · obtain ⟨h, hmarker, hh⟩ : ∃ h, m = .endHeight ⟨h⟩ ∧ accept h = true := by
          cases m with
          | endHeight e => exact ⟨e.height, rfl, by simpa [Rejects, Input.endHeight?] using hm⟩
          | _ => exact absurd (fun h hm => by cases hm) hm
        exact .inr ⟨[], h, L, by rw [hmarker]; rfl, hh, hL⟩
    · exact .inr ⟨m :: before, h, after, rfl, hh, hafter⟩

theorem length_lt_segments (hlog : log.Shows s id c) :
    log.group.maxIndex - log.group.minIndex < c.segments.length := by
  rw [hlog.opened.length_tails, hlog.length_segments]
  exact Nat.lt_succ_self _

theorem search_of_rejected (hlog : log.Shows s id c) (hread : Readable log c)
    (hall : ∀ m ∈ c.all, Rejects accept m) : log.search accept = .ok none := by
  have hfrom : log.searchFrom accept (log.group.maxIndex - log.group.minIndex) = .ok none := by
    refine searchFrom_of_rejected hlog hread (length_lt_segments hlog) fun j ms _ hms m hm => ?_
    exact hall m (Chapters.mem_all hms hm)
  rw [search, hlog.opened.isClosed, hfrom]
  rfl

/-- The last marker that is accepted is found, wherever it is, and the reader has ahead what
    comes after it. -/
theorem search_of_last (hlog : log.Shows s id c) (hread : Readable log c)
    (hvalid : log.group.config.validate = .ok ()) (hh : accept h = true)
    (hall : c.all = before ++ .endHeight ⟨h⟩ :: after) (hafter : ∀ m ∈ after, Rejects accept m) :
    ∃ r, log.search accept = .ok (some (h, r)) ∧ Reader.Live log r after := by
  rw [← c.flatten_segments] at hall
  obtain ⟨k, b, a, hget, rfl⟩ := flatten_eq_append_cons hall
  have hk := (List.getElem?_eq_some_iff.1 hget).1
  rw [hlog.length_segments, ← hlog.opened.length_tails] at hk
  -- what is in the newer segments comes after the marker
  have hnewer : ∀ j ms, k < j → c.segments[j]? = some ms → ∀ m ∈ ms, Rejects accept m := by
    intro j ms hj hms m hm
    refine hafter m (List.mem_append_right _ (List.mem_flatten.2 ⟨ms, ?_, hm⟩))
    refine List.mem_of_getElem? (i := j - (k + 1)) ?_
    rw [List.getElem?_drop, Nat.add_sub_cancel' hj, hms]
  have hfrom := searchFrom_of_last hlog hread (length_lt_segments hlog) (Nat.le_of_lt_succ hk) hh
    hget (fun m hm => hafter m (List.mem_append_left _ hm)) hnewer
  have hbehind : c.segments[k]? = some (b ++ [.endHeight ⟨h⟩] ++ a) := by
    rw [hget, List.append_assoc]
    rfl
  have hstands := Reader.stands_atPosition hlog hbehind
  refine ⟨_, by rw [search, hlog.opened.isClosed, hfrom]; rfl, hvalid, rfl, fun m hm => ?_,
    s, id, c, hlog, hstands.ahead⟩
  refine hread m ?_
  rw [← c.flatten_segments, hall]
  exact List.mem_append_right _ (List.mem_cons_of_mem _ hm)

/-- Whatever is written to the log and read from it from now on, as long as no segment is
    deleted, the reader returns, and still has to return, the messages ahead and then those
    that are written. -/
def Reader.Resumes (r : Reader) (log : Log) (ahead : List Input) : Prop :=
  ∀ written returned log' r', Reader.Follows log r written returned log' r' →
    ∃ rest, returned ++ rest = ahead ++ written ∧ Reader.Yields log' r' rest

theorem Reader.Live.resumes {r : Reader} (h : Reader.Live log r ms) : r.Resumes log ms := by
  intro written returned log' r' hfollows
  obtain ⟨rest, heq, hlive⟩ := hfollows.resumes h
  exact ⟨rest, heq, hlive.yields⟩

theorem rejects_all : Rejects (fun _ => true) m ↔ m.endHeight? = none := by
  cases hm : m.endHeight? <;> simp [Rejects, hm]

theorem rejects_eq : Rejects (· == h) m ↔ m.endHeight? ≠ some h := by
  simp only [Rejects, beq_eq_false_iff_ne, ne_eq]
  exact ⟨fun hm he => hm h he rfl, fun hm h' he => by rintro rfl; exact hm he⟩

/-- The search through the segments comes to what one gets by going through all messages. -/
theorem search_eq (hlog : log.Shows s id c) (hread : Readable log c)
    (hvalid : log.group.config.validate = .ok ()) (accept : UInt64 → Bool) :
    (log.search accept = .ok none ↔ ∀ m ∈ c.all, Rejects accept m) ∧
      ∀ before h after, c.all = before ++ .endHeight ⟨h⟩ :: after → accept h = true →
        (∀ m ∈ after, Rejects accept m) →
        ∃ r, log.search accept = .ok (some (h, r)) ∧ r.Resumes log after := by
  refine ⟨⟨fun hnone => ?_, search_of_rejected hlog hread⟩, fun before h after hall hh hafter => ?_⟩
  · rcases exists_last accept c.all with hall | ⟨before, h, after, hall, hh, hafter⟩
    · exact hall
    · obtain ⟨r, hsome, -⟩ := search_of_last hlog hread hvalid hh hall hafter
      rw [hnone] at hsome
      cases hsome
  · obtain ⟨r, hsome, hlive⟩ := search_of_last hlog hread hvalid hh hall hafter
    exact ⟨r, hsome, hlive.resumes⟩

/-- After any run in an empty directory, the searches find in an open log what one finds by
    replaying it: no marker if there is none, or else the last one, of all or of those of a
    height, and with it a reader that goes on behind it. -/
theorem search_eq_replay {dir : String} {w : Workbench}
    (hdir : w.disk.list (.ofText dir) = .ok []) (hgroup : w.group = none) {es : List Incident}
    (hes : ∀ e ∈ es, e.Operates fun config => config.dir = dir)
    (hrotations : w.rotations dir es < 2 ^ 64) (hlog : (w.after dir es).log? = some log)
    (hopen : log.group.isClosed = false) {r : Reader} {L : List Input}
    (hr : log.newReader = .ok r) (hL : Reader.Yields log r L) :
    ((log.searchLatestEndHeight = .ok none ↔ ∀ m ∈ L, m.endHeight? = none) ∧
      ∀ before h after, L = before ++ .endHeight ⟨h⟩ :: after → (∀ m ∈ after, m.endHeight? = none) →
        ∃ r', log.searchLatestEndHeight = .ok (some (h, r')) ∧ r'.Resumes log after) ∧
    ∀ h, (log.searchEndHeight h = .ok none ↔ ∀ m ∈ L, m.endHeight? ≠ some h) ∧
      ∀ before after, L = before ++ .endHeight ⟨h⟩ :: after → (∀ m ∈ after, m.endHeight? ≠ some h) →
        ∃ r', log.searchEndHeight h = .ok (some r') ∧ r'.Resumes log after := by
  obtain ⟨s, rest, hkept, -⟩ := Kept.of_run (fun _ h => h) hdir hgroup es hes hrotations
  obtain ⟨-, id, hshows⟩ := hkept.shows hlog hopen
  obtain ⟨-, hvalid⟩ := hkept.config_of_log hlog
  -- what the new reader yields are the chapters, and they are readable
  obtain ⟨r', hr', hahead, hmax⟩ := Reader.newReader_ahead hshows
  cases hr.symm.trans hr'
  obtain ⟨rfl, hfits⟩ := hahead.eq_of_yields hshows hL
  rw [hmax] at hfits
  refine ⟨?_, fun h => ?_⟩
  · obtain ⟨hnone, hsome⟩ := search_eq hshows hfits hvalid fun _ => true
    simp only [rejects_all] at hnone hsome
    exact ⟨hnone, fun before h after hL hafter => hsome before h after hL trivial hafter⟩
  · obtain ⟨hnone, hsome⟩ := search_eq hshows hfits hvalid (· == h)
    simp only [rejects_eq] at hnone hsome
    refine ⟨?_, fun before after hL hafter => ?_⟩
    · rw [← hnone, searchEndHeight]
      rcases log.search (· == h) with e | _ | found <;> simp [Except.map]
    · obtain ⟨r', hr', hresumes⟩ := hsome before h after hL (beq_self_eq_true h) hafter
      exact ⟨r', by rw [searchEndHeight, hr']; rfl, hresumes⟩

theorem search_twoHeights : ∃ log r,
    ((Workbench.empty "root").after "root" (twoHeights.map .act)).log? = some log ∧
      log.searchEndHeight 5 = .ok (some r) ∧ r.Resumes log [.endHeight ⟨6⟩] := by
  obtain ⟨log, hlog, hopen⟩ := log_twoHeights
  obtain ⟨r, hr, -, hyields⟩ := Workbench.replays list_root rfl operates_twoHeights
    rotations_twoHeights hlog hopen
  have hes : ∀ e ∈ twoHeights.map Incident.act, e.Operates fun config => config.dir = "root" := by
    simp [twoHeights, Incident.Operates, WorkbenchAction.Operates, LogConfig.dev]
  obtain ⟨-, hsearch⟩ :=
    search_eq_replay list_root rfl hes rotations_twoHeights hlog hopen hr hyields
  obtain ⟨r', hr', hresumes⟩ := (hsearch 5).2 [] [.endHeight ⟨6⟩] written_twoHeights
    (by simp [Input.endHeight?])
  exact ⟨log, r', hlog, hr', hresumes⟩

end ConsensusCore
