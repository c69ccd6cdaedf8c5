import ConsensusCore.Proofs.Log.Readers
import ConsensusCore.Proofs.Log.Replay
import Mathlib.Logic.Function.Basic
import Mathlib.Logic.Relation

/-!
# Readers of a log in use

An open log is read while it is written to (`Session.Step`): the bytes of a record arrive in
the head in pieces, the head is sealed between two records, readers are started and asked for
the next message, all in any order. No segment is deleted meanwhile.

Each reader goes through the complete records in the log from its start on
(`Session.readers_follow`). It waits only where there is none, even if the beginning of
another one is there, and fails at none. What it does is nothing to the log or to the other
readers (`Workbench.run_reader`).

A reader that has come to the end of a segment before that was sealed goes on to the next one
not before it is asked for a message. Until then, its position is the end of that segment.
-/

namespace ConsensusCore

open Relation

/-- The reader goes through the records in the log, from the one that it was started at. -/
structure Reading.Follows (ρ : Reading) (log : Log) (r : Reader) : Prop where
  /-- It has returned those up to its position, and none of the others. -/
  returned : ∃ past, log.entriesFrom ρ.start = past ++ log.entriesFrom r.position ∧
    past.map Entry.message = ρ.returned
  /-- Its position is that of the next record, unless it is still at the end of a segment that
      is sealed. -/
  position : r.position = log.nextPlace r.position ∨
    r.index < log.group.maxIndex ∧ r.position = log.endOf r.index
  /-- The next record is returned. -/
  next : ∀ e es, log.entriesFrom r.position = e :: es →
    ∃ r', log.read r = (.ok (some e.message), r') ∧ r'.position = e.stop
  /-- If there is none, the reader waits at the end of the head. -/
  wait : log.entriesFrom r.position = [] →
    ∃ r', log.read r = (.ok none, r') ∧ r'.position = log.endOf log.group.maxIndex

/-- The messages among what has been read are returned. -/
def Reading.add (ρ : Reading) (items : List (Except LogError (Option Input))) : Reading :=
  { ρ with returned := ρ.returned ++ items.filterMap fun item => item.toOption.join }

/-- A workbench on which an open log is in use. -/
structure Session where
  bench : Workbench
  /-- The message that is being written, and the bytes of its record that are still to come. -/
  due : Option (Input × Bytes)
  /-- The messages that have been written. -/
  written : List Input
  /-- What the readers have returned that have been started, by their names. -/
  readings : String → Option Reading

namespace Session

/-- A workbench before anything is written or read. -/
def start (w : Workbench) : Session := ⟨w, none, [], fun _ => none⟩

/-- What can happen to a log in use. -/
inductive Step : Session → Session → Prop
  /-- A message is to be written. -/
  | begin {σ : Session} {log : Log} {m : Input} {bs : Bytes} :
    σ.due = none → σ.bench.log? = some log → log.envelope m = .ok bs →
      Step σ { σ with due := some (m, Record.encode bs) }
  /-- Some bytes of its record arrive in the head. -/
  | arrive {σ : Session} {log : Log} {m : Input} {piece bs : Bytes} {g : Group} {d : Disk} :
    σ.due = some (m, piece ++ bs) → bs ≠ [] → σ.bench.log? = some log →
      log.group.write log.disk piece = .ok (g, d) →
      Step σ { σ with
        bench := σ.bench.putLog { log with disk := d, group := g }
        due := some (m, bs) }
  /-- The last bytes of its record arrive. -/
  | finish {σ : Session} {log : Log} {m : Input} {bs : Bytes} {g : Group} {d : Disk} :
    σ.due = some (m, bs) → σ.bench.log? = some log →
      log.group.write log.disk bs = .ok (g, d) →
      Step σ { σ with
        bench := σ.bench.putLog { log with disk := d, group := g }
        due := none
        written := σ.written ++ [m] }
  /-- The head is sealed, if it can be, or if that is due; no segment is deleted. -/
  | rotate {σ : Session} {log : Log} {a : WorkbenchAction} :
    σ.due = none → a = .rotate ∨ a = .checkLimits → σ.bench.log? = some log →
      log.group.maxIndex < Saturating.ceiling →
      (σ.bench.run a).2.group.map Group.minIndex = some log.group.minIndex →
      Step σ { σ with bench := (σ.bench.run a).2 }
  /-- A reader is started. -/
  | join {σ : Session} {a : WorkbenchAction} {name : String} {position : Nat × Nat}
      {height : Option UInt64} :
    a.Starts name → (σ.bench.run a).1 = .reader position height →
      Step σ { σ with
        bench := (σ.bench.run a).2
        readings := Function.update σ.readings name (some ⟨position, []⟩) }
  /-- A reader is asked for the next message. -/
  | read {σ : Session} {name : String} {items : List (Except LogError (Option Input))}
      {position : Nat × Nat} :
    (σ.bench.run (.read name)).1 = .read items position →
      Step σ { σ with
        bench := (σ.bench.run (.read name)).2
        readings := Function.update σ.readings name ((σ.readings name).map (·.add items)) }

end Session

/-! ## What a session keeps -/

namespace Session

variable {σ σ' : Session} {old : List Input} {log : Log} {s : Shelf} {id : FileId}
  {c : Chapters} {rest : Bytes}

/-- What is in the head after its messages is the beginning of the record that is due, which
    readers accept. -/
def Due (max : Nat) (rest : Bytes) : Option (Input × Bytes) → Prop
  | none => rest = []
  | some (m, bs) =>
    bs ≠ [] ∧ rest ++ bs = Record.encode m.envelope ∧ m.envelope.length ≤ max

/-- The log holds what it held and what has been written, and the readers track it. -/
structure On (σ : Session) (old : List Input) (log : Log) (s : Shelf) (id : FileId)
    (c : Chapters) (rest : Bytes) : Prop where
  bench : σ.bench.log? = some log
  holds : log.Holds s id c rest
  valid : log.group.config.validate = .ok ()
  fits : ∀ m ∈ c.all, m.envelope.length ≤ log.group.config.maxRecordSize
  due : Due log.group.config.maxRecordSize rest σ.due
  messages : c.all = old ++ σ.written
  readers : ∀ name ρ, σ.readings name = some ρ →
    ∃ r, σ.bench.readers.lookup name = some ⟨r, none⟩ ∧ ρ.Tracks log s c r

/-- The session is on a log, whatever it holds by now. -/
def Sound (σ : Session) (old : List Input) : Prop := ∃ log s id c rest, σ.On old log s id c rest

theorem Due.torn {max : Nat} {due : Option (Input × Bytes)} (h : Due max rest due)
    (hmax : max < 2 ^ 32) : Record.Torn max rest := by
  cases due with
  | none => exact h ▸ Record.torn_nil max
  | some due =>
    obtain ⟨hbs, hrecord, hm⟩ := h
    have hpos := List.length_pos_iff.2 hbs
    refine ⟨_, rest.length, ⟨hm, Nat.lt_of_le_of_lt hm hmax⟩, ?_, ?_⟩
    · rw [← hrecord, List.length_append]
      omega
    · rw [← hrecord, List.take_left]

namespace On

variable (h : σ.On old log s id c rest)
include h

/-- What is due, and what has arrived of it. -/
theorem due_of_eq {due : Option (Input × Bytes)} (hdue : σ.due = due) :
    Due log.group.config.maxRecordSize rest due :=
  hdue ▸ h.due

theorem accepts : log.Accepts c rest :=
  ⟨h.fits, h.due.torn (LogConfig.maxRecordSize_lt h.valid)⟩

theorem begin {m : Input} {bs : Bytes} (hdue : σ.due = none)
    (henvelope : log.envelope m = .ok bs) :
    On { σ with due := some (m, Record.encode bs) } old log s id c rest := by
  have hrest : rest = [] := h.due_of_eq hdue
  have hencode : log.registry.encode m = .ok m.envelope :=
    h.holds.registry ▸ Registry.encode_inputs m
  simp only [Log.envelope, hencode] at henvelope
  split at henvelope
  · cases henvelope
  · next hm =>
    cases henvelope
    refine ⟨h.bench, h.holds, h.valid, h.fits, ⟨?_, by rw [hrest]; rfl, Nat.not_lt.1 hm⟩,
      h.messages, h.readers⟩
    rw [← List.length_pos_iff, Record.length_encode, Record.headerLength]
    omega

theorem arrive {m : Input} {piece bs : Bytes} {g : Group} {d : Disk}
    (hdue : σ.due = some (m, piece ++ bs)) (hbs : bs ≠ [])
    (hwrite : log.group.write log.disk piece = .ok (g, d)) :
    On { σ with
      bench := σ.bench.putLog { log with disk := d, group := g }
      due := some (m, bs) } old { log with disk := d, group := g } s id c (rest ++ piece) := by
  obtain ⟨-, hencode, hm⟩ := h.due_of_eq hdue
  obtain ⟨hholds, hconfig, hcontent⟩ :=
    h.holds.append rfl (List.append_assoc _ _ _) h.holds.short hwrite
  refine ⟨Workbench.log?_putLog hholds.registry, hholds, hconfig ▸ h.valid, hconfig ▸ h.fits,
    ⟨hbs, by rw [List.append_assoc, hencode], hconfig ▸ hm⟩, h.messages, fun name ρ hρ => ?_⟩
  obtain ⟨r, hr, htracks⟩ := h.readers name ρ hρ
  exact ⟨r, hr, htracks.arrive hconfig hcontent⟩

theorem finish {m : Input} {bs : Bytes} {g : Group} {d : Disk} (hdue : σ.due = some (m, bs))
    (hwrite : log.group.write log.disk bs = .ok (g, d)) :
    On { σ with
      bench := σ.bench.putLog { log with disk := d, group := g }
      due := none
      written := σ.written ++ [m] } old { log with disk := d, group := g } s id (c.write m) [] := by
  obtain ⟨-, hencode, hm⟩ := h.due_of_eq hdue
  obtain ⟨hholds, hconfig, hcontent⟩ := h.holds.append_last hencode
    (Nat.lt_of_le_of_lt hm (LogConfig.maxRecordSize_lt h.valid)) hwrite
  refine ⟨Workbench.log?_putLog hholds.registry, hholds, hconfig ▸ h.valid,
    Chapters.forall_mem_all_write.2 (hconfig ▸ ⟨h.fits, hm⟩), rfl, ?_, fun name ρ hρ => ?_⟩
  · rw [Chapters.all_write, h.messages, List.append_assoc]
  · obtain ⟨r, hr, htracks⟩ := h.readers name ρ hρ
    exact ⟨r, hr, htracks.write hconfig hcontent m⟩

theorem rotate {a : WorkbenchAction} (hdue : σ.due = none) (ha : a = .rotate ∨ a = .checkLimits)
    (hnumber : log.group.maxIndex < Saturating.ceiling)
    (hmin : (σ.bench.run a).2.group.map Group.minIndex = some log.group.minIndex) :
    Sound { σ with bench := (σ.bench.run a).2 } old := by
  obtain rfl : rest = [] := h.due_of_eq hdue
  obtain ⟨hreaders, log', s', id', c', hlog', hshows', hsealing⟩ :=
    Workbench.run_rotates h.bench h.holds ha hnumber hmin
  have hall : c'.all = c.all := by
    obtain ⟨-, rfl⟩ | ⟨_, _, -, -, rfl⟩ := hsealing.shelf
    · rfl
    · exact c.all_sealHead
  refine ⟨log', s', id', c', [], hlog', hshows', hsealing.config ▸ h.valid, ?_, ?_,
    hall.trans h.messages, fun name ρ hρ => ?_⟩
  · rw [hall, hsealing.config]
    exact h.fits
  · rw [hdue]
    rfl
  · obtain ⟨r, hr, htracks⟩ := h.readers name ρ hρ
    exact ⟨r, hreaders ▸ hr, htracks.sealing h.holds.opened.head_eq hsealing⟩

/-- With another reader under a name, the others go on as they were. -/
theorem putReader {name : String} {r : Reader} {ρ : Option Reading}
    (hρ : ∀ ρ', ρ = some ρ' → ρ'.Tracks log s c r) :
    On { σ with
      bench := σ.bench.putReader name ⟨r, none⟩
      readings := Function.update σ.readings name ρ } old log s id c rest := by
  refine ⟨h.bench, h.holds, h.valid, h.fits, h.due, h.messages, fun name' ρ' hρ' => ?_⟩
  rw [Workbench.lookup_putReader]
  dsimp only at hρ'
  by_cases hname : name' = name
  · subst hname
    rw [Function.update_self] at hρ'
    exact ⟨r, if_pos rfl, hρ ρ' hρ'⟩
  · rw [Function.update_of_ne hname] at hρ'
    rw [if_neg hname]
    exact h.readers name' ρ' hρ'

theorem read {name : String} {items : List (Except LogError (Option Input))}
    {position : Nat × Nat} (hanswer : (σ.bench.run (.read name)).1 = .read items position) :
    On { σ with
      bench := (σ.bench.run (.read name)).2
      readings := Function.update σ.readings name ((σ.readings name).map (·.add items)) }
      old log s id c rest := by
  obtain ⟨hlog', hothers⟩ := σ.bench.run_reader (.inl (rfl : WorkbenchAction.read name = _))
  cases hρ : σ.readings name with
  | none =>
    -- the reader is not one of those that have been started
    refine ⟨hlog'.trans h.bench, h.holds, h.valid, h.fits, h.due, h.messages,
      fun name' ρ' hρ' => ?_⟩
    dsimp only at hρ'
    have hname : name' ≠ name := by
      rintro rfl
      rw [Function.update_self] at hρ'
      cases hρ'
    rw [Function.update_of_ne hname] at hρ'
    rw [hothers name' hname]
    exact h.readers name' ρ' hρ'
  | some ρ =>
    obtain ⟨r, hr, htracks⟩ := h.readers name ρ hρ
    have hrun := Workbench.run_read h.bench hr
    rw [hrun] at hanswer ⊢
    cases hanswer
    refine h.putReader fun ρ' hρ' => ?_
    cases hρ'
    cases hentries : log.entriesFrom r.position with
    | nil =>
      obtain ⟨r', hread, -, htracks'⟩ := htracks.read_wait h.holds h.accepts hentries
      rw [hread]
      simpa [Reading.add, Except.toOption] using htracks'
    | cons e es =>
      obtain ⟨r', hread, -, htracks'⟩ := htracks.read_next h.holds h.accepts hentries
      rw [hread]
      simpa [Reading.add, Except.toOption] using htracks'

/-- The readers follow the log. -/
theorem follows {name : String} {ρ : Reading} (hρ : σ.readings name = some ρ) :
    ∃ r, σ.bench.readers.lookup name = some ⟨r, none⟩ ∧ ρ.Follows log r := by
  obtain ⟨r, hr, htracks⟩ := h.readers name ρ hρ
  refine ⟨r, hr, ?_, htracks.position h.holds h.accepts, fun e es hnext => ?_, fun hnone => ?_⟩
  · simp only [Log.entriesFrom, h.holds.entries h.accepts]
    exact htracks.returned
  · obtain ⟨r', hread, hposition, -⟩ := htracks.read_next h.holds h.accepts hnext
    exact ⟨r', hread, hposition⟩
  · obtain ⟨r', hread, hposition, -⟩ := htracks.read_wait h.holds h.accepts hnone
    exact ⟨r', hread, hposition⟩

end On

/-- Whatever happens to a log in use, it holds what was written to it, and its readers track
    it. -/
theorem Sound.step (h : σ.Sound old) (hstep : Step σ σ') : σ'.Sound old := by
  obtain ⟨log, s, id, c, rest, h⟩ := h
  cases hstep with
  | begin hdue hlog henvelope =>
    cases h.bench.symm.trans hlog
    exact ⟨log, s, id, c, rest, h.begin hdue henvelope⟩
  | arrive hdue hbs hlog hwrite =>
    cases h.bench.symm.trans hlog
    exact ⟨_, s, id, c, _, h.arrive hdue hbs hwrite⟩
  | finish hdue hlog hwrite =>
    cases h.bench.symm.trans hlog
    exact ⟨_, s, id, _, [], h.finish hdue hwrite⟩
  | rotate hdue ha hlog hnumber hmin =>
    cases h.bench.symm.trans hlog
    exact h.rotate hdue ha hnumber hmin
  | join ha hanswer =>
    obtain ⟨r, hstarts, rfl, hrun⟩ := Workbench.run_starts h.bench ha hanswer
    rw [hrun]
    refine ⟨log, s, id, c, rest, h.putReader fun ρ hρ => ?_⟩
    cases hρ
    exact hstarts.tracks h.holds h.accepts
  | read hanswer => exact ⟨log, s, id, c, rest, h.read hanswer⟩

theorem Sound.run (h : σ.Sound old) (hrun : ReflTransGen Step σ σ') : σ'.Sound old := by
  induction hrun with
  | refl => exact h
  | tail _ hstep ih => exact ih.step hstep

/-- To write a message at once is one way for its bytes to arrive. -/
theorem write {m : Input} (hdue : σ.due = none) (hlog : σ.bench.log? = some log)
    (hdone : (σ.bench.run (.write m)).1.isDone = true) :
    ReflTransGen Step σ { σ with
      bench := (σ.bench.run (.write m)).2
      written := σ.written ++ [m] } := by
  simp only [Workbench.run, Workbench.withLog_of_log hlog] at hdone ⊢
  simp only [Log.write] at hdone ⊢
  cases henvelope : log.envelope m with
  | error e => simp [henvelope, Workbench.change, WorkbenchAnswer.isDone] at hdone
  | ok bs =>
    cases hwrite : log.group.write log.disk (Record.encode bs) with
    | error e => simp [henvelope, hwrite, Workbench.change, WorkbenchAnswer.isDone] at hdone
    | ok written =>
      have hfinish := (ReflTransGen.single (Step.begin hdue hlog henvelope)).tail
        (Step.finish rfl hlog hwrite)
      rw [← hdue] at hfinish
      simp only [hwrite]
      exact hfinish

end Session

/-! ## Logs in use after a run -/

/-- A log that has always been opened with the same limit is legible. -/
theorem Kept.legible {ok : LogConfig → Prop} {dir : String} {w : Workbench} {s : Shelf}
    {c : Chapters} {rest : Bytes} {log : Log} {max : Nat} (h : Kept ok dir w s c rest)
    (hmax : Uniform ok max) (hlog : w.log? = some log) (hopen : log.group.isClosed = false) :
    log.Legible := by
  obtain ⟨-, id, hshows⟩ := h.shows hlog hopen
  refine hshows.legible fun m hm => ?_
  rw [hmax _ (h.config_of_log hlog).1]
  exact (h.storable m hm).2 max hmax

/-- After any run in an empty directory, an open log that is legible is used in any way in
    which no segment is deleted and the numbers do not run out. Then the log holds what it
    held and what has been written to it. Each of its readers has returned the records from
    its start up to its position, and returns the next one when it is asked, or waits if there
    is none. This changes nothing but the reader. -/
theorem Session.readers_follow {ok : LogConfig → Prop} {dir : String} {w : Workbench}
    (hok : ∀ config, ok config → config.dir = dir)
    (hdir : w.disk.list (.ofText dir) = .ok []) (hgroup : w.group = none) {es : List Incident}
    (hes : ∀ e ∈ es, e.Operates ok) (hrotations : w.rotations dir es < 2 ^ 64) {log : Log}
    (hlog : (w.after dir es).log? = some log) (hopen : log.group.isClosed = false)
    (hlegible : log.Legible) {σ : Session} (hrun : ReflTransGen Step (start (w.after dir es)) σ) :
    ∃ log', σ.bench.log? = some log' ∧
      log'.entries.map Entry.message = log.entries.map Entry.message ++ σ.written ∧
      (∀ name ρ, σ.readings name = some ρ →
        ∃ r, σ.bench.readers.lookup name = some ⟨r, none⟩ ∧ ρ.Follows log' r ∧
          σ.bench.run (.read name) = (.read [(log'.read r).1] (log'.read r).2.position,
            σ.bench.putReader name ⟨(log'.read r).2, none⟩)) ∧
      ∀ name a, a = .read name ∨ a.Starts name → (σ.bench.run a).2.log? = some log' ∧
        ∀ name', name' ≠ name →
          (σ.bench.run a).2.readers.lookup name' = σ.bench.readers.lookup name' := by
  obtain ⟨s, rest, hkept, -⟩ := Kept.of_run hok hdir hgroup es hes hrotations
  obtain ⟨-, id, hshows⟩ := hkept.shows hlog hopen
  have hvalid := (hkept.config_of_log hlog).2
  have hfits := hshows.fits_of_legible hlegible
  have hentries := hshows.entries ⟨hfits, Record.torn_nil _⟩
  have hstart : On (start (w.after dir es)) _ log s id _ [] :=
    ⟨hlog, hshows, hvalid, hfits, rfl, (List.append_nil _).symm, fun _ _ hρ => by cases hρ⟩
  obtain ⟨log', s', id', c', rest', h⟩ := Sound.run ⟨_, _, _, _, _, hstart⟩ hrun
  refine ⟨log', h.bench, ?_, fun name ρ hρ => ?_, fun name a ha => ?_⟩
  · rw [h.holds.entries h.accepts, hentries, Chapters.map_message_entries,
      Chapters.map_message_entries, h.messages]
  · obtain ⟨r, hr, hfollows⟩ := h.follows hρ
    exact ⟨r, hr, hfollows, Workbench.run_read h.bench hr⟩
  · obtain ⟨hsame, hothers⟩ := σ.bench.run_reader ha
    exact ⟨hsame.trans h.bench, hothers⟩

theorem readers_follow_twoHeights : ∃ σ log r,
    ReflTransGen Session.Step
        (.start ((Workbench.empty "root").after "root" (twoHeights.map .act))) σ ∧
      σ.bench.log? = some log ∧ σ.written = [.endHeight ⟨7⟩] ∧
      σ.bench.readers.lookup "r" = some ⟨r, none⟩ ∧
      Reading.Follows ⟨(0, 0), [.endHeight ⟨5⟩]⟩ log r := by
  obtain ⟨log, hlog, hopen⟩ := log_twoHeights
  have hes : ∀ e ∈ twoHeights.map Incident.act,
      e.Operates (LogConfig.KeepsAll "root" (64 * 1024)) :=
    List.forall_mem_map.2 operates_twoHeights
  have hok : ∀ config, LogConfig.KeepsAll "root" (64 * 1024) config → config.dir = "root" :=
    fun _ h => h.1
  obtain ⟨s, rest, hkept, -⟩ := Kept.of_run hok list_root rfl _ hes rotations_twoHeights
  have hlegible := hkept.legible LogConfig.KeepsAll.uniform hlog hopen
  -- a reader is started, a third message is written, and the first one is read
  obtain ⟨w, hw⟩ : ∃ w, w = (Workbench.empty "root").after "root" (twoHeights.map .act) := ⟨_, rfl⟩
  have hstarts : (WorkbenchAction.newReader "r").Starts "r" := rfl
  have hsame := (w.run_reader (.inr hstarts)).1
  have hjoin : (w.run (.newReader "r")).1 = .reader (0, 0) none := by rw [hw]; decide +kernel
  have hdone : ((w.run (.newReader "r")).2.run (.write (.endHeight ⟨7⟩))).1.isDone = true := by
    rw [hw]; decide +kernel
  have hread : (((w.run (.newReader "r")).2.run (.write (.endHeight ⟨7⟩))).2.run (.read "r")).1 =
      .read [.ok (some (.endHeight ⟨5⟩))] (0, 25) := by
    rw [hw]; decide +kernel
  rw [← hw] at hlog
  have hrun := ((ReflTransGen.single (@Session.Step.join (.start w) _ _ _ _ hstarts hjoin)).trans
    (Session.write rfl (hsame.trans hlog) hdone)).tail (Session.Step.read hread)
  rw [hw] at hlog hrun
  obtain ⟨log', hlog', -, hreaders, -⟩ := Session.readers_follow hok list_root rfl hes
    rotations_twoHeights hlog hopen hlegible hrun
  obtain ⟨r, hr, hfollows, -⟩ := hreaders "r" ⟨(0, 0), [.endHeight ⟨5⟩]⟩
    (by simp [Reading.add, Except.toOption])
  exact ⟨_, log', r, hrun, hlog', rfl, hr, hfollows⟩

/-- The head has been sealed since its reader was started, and a message is in the next one. -/
def Workbench.sealedBehind : Workbench :=
  (empty "root").after "root" ([.openLog (.dev "root") false, .newReader "r", .rotate,
    .write (.endHeight ⟨6⟩)].map .act)

/-- The log has been opened again with a limit that its message is above. -/
def Workbench.shortened : Workbench :=
  (empty "root").after "root" ([.openLog (.dev "root") false, .write (.endHeight ⟨5⟩),
    .openLog { LogConfig.dev "root" with maxRecordSize := 1 } false, .newReader "r"].map .act)

/-- The position of a reader need not be in the segment of the next record, which is read from
    the next one here. A record that is longer than the log has been opened for is an error. -/
theorem Session.reader_lags :
    (Workbench.sealedBehind.readers.lookup "r").map (·.reader.position) = some (0, 0) ∧
      (Workbench.sealedBehind.run (.read "r")).1 =
        .read [.ok (some (.endHeight ⟨6⟩))] (1, (frames [.endHeight ⟨6⟩]).length) ∧
      (Workbench.shortened.run (.read "r")).1 =
        .read [.error (.corrupt "root/WAL" 0 (.record (.tooLong 17 1)))] (0, 0) := by
  refine ⟨?_, ?_, ?_⟩ <;> decide +kernel

end ConsensusCore
